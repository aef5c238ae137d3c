import Edk2.PeCoff.Relocate

/-!
# The records of a relocation directory

What both relocation passes see of the relocation directory: its blocks and their records. A pass
over a memory that shows the same blocks runs through the same records, as long as the fields of
these records are no part of the blocks.

## Main results

* `runRecords_eq`: a pass over the records of one block
* `Scanned.returns`: a pass over all blocks
* `fixRecords_mem`, `fixRecords_log`: what the first pass leaves in memory and in the log
* `refixRecords_mem`: what the runtime pass makes of the fields
-/

namespace Edk2.PeCoff

open List Option

variable {d : Directory} {m m' : Memory} {rs : List Record} {blocks : List (ℕ × ℕ)}

/-! ## Scanning -/

/-- The `n` records at `reloc` of a block for the page at `va`. -/
def recordsAt (d : Directory) (m : Memory) (va : ℕ) : ℕ → ℕ → Option (List Record)
  | 0, _ => some []
  | n + 1, reloc =>
    match d.address (add32 va (le m reloc 2 % 4096)), relocType (le m reloc 2 / 4096) with
    | some place, some type =>
      (recordsAt d m va n (reloc + 2)).map (⟨type, place⟩ :: ·)
    | _, _ => none

/-- The blocks from `base` on, each with its size, and their records: no block is refused. -/
inductive Scanned (d : Directory) (m : Memory) : ℕ → List (ℕ × ℕ) → List Record → Prop
  | done {base : ℕ} : d.last ≤ base → Scanned d m base [] []
  | block {base page : ℕ} {blocks : List (ℕ × ℕ)} {rs rest : List Record} : base < d.last →
      checkBlock d base (le m (base + 4) 4) = true → d.address (le m base 4) = some page →
      recordsAt d m (le m base 4) (recordCount (le m (base + 4) 4)) (base + 8) = some rs →
      Scanned d m (base + le m (base + 4) 4) blocks rest →
      Scanned d m base ((base, le m (base + 4) 4) :: blocks) (rs ++ rest)

/-- The bytes of a block that are read: its header and its records, the last of which may reach
beyond a block of odd size. -/
def blockSpan (sizeOfBlock : ℕ) : ℕ := max 8 (sizeOfBlock + sizeOfBlock % 2)

def SameBlocks (blocks : List (ℕ × ℕ)) (m m' : Memory) : Prop :=
  ∀ b ∈ blocks, ∀ x, b.1 ≤ x → x < b.1 + blockSpan b.2 → m' x = m x

/-- The fields of the records are no part of the blocks. -/
def Unread (rs : List Record) (blocks : List (ℕ × ℕ)) : Prop :=
  ∀ r ∈ rs, ∀ b ∈ blocks, Apart r.place r.width b.1 (blockSpan b.2)

theorem recordCount_le (size : ℕ) : 8 + 2 * recordCount size ≤ blockSpan size := by
  unfold recordCount blockSpan
  omega

variable {va n reloc base x : ℕ} {val : Record → ℕ}

theorem recordsAt_congr (h : ∀ x, reloc ≤ x → x < reloc + 2 * n → m' x = m x) :
    recordsAt d m' va n reloc = recordsAt d m va n reloc := by
  induction n generalizing reloc with
  | zero => rfl
  | succ n ih =>
    have hw : le m' reloc 2 = le m reloc 2 :=
      le_congr fun i hi => h _ (by omega) (by omega)
    have hr : recordsAt d m' va n (reloc + 2) = recordsAt d m va n (reloc + 2) :=
      ih fun x hlo hhi => h x (by omega) (by omega)
    rw [recordsAt, recordsAt, hw, hr]

theorem Scanned.congr (h : Scanned d m base blocks rs) (hsa : SameBlocks blocks m m') :
    Scanned d m' base blocks rs := by
  induction h with
  | done hlast => exact .done hlast
  | @block base page blocks rs rest hlast hc hp hrec _ ih =>
    have hbl := hsa _ mem_cons_self
    have hsp := recordCount_le (le m (base + 4) 4)
    have hva : le m' base 4 = le m base 4 :=
      le_congr fun i hi => hbl _ (by dsimp only; omega) (by dsimp only; omega)
    have hs : le m' (base + 4) 4 = le m (base + 4) 4 :=
      le_congr fun i hi => hbl _ (by dsimp only; omega) (by dsimp only; omega)
    have hre : recordsAt d m' (le m base 4) (recordCount (le m (base + 4) 4)) (base + 8) =
        recordsAt d m (le m base 4) (recordCount (le m (base + 4) 4)) (base + 8) :=
      recordsAt_congr fun x hlo hhi => hbl x (by dsimp only; omega) (by dsimp only; omega)
    have hr := ih fun b hb => hsa b (mem_cons_of_mem _ hb)
    rw [← hs] at hc hr ⊢
    rw [← hva] at hp
    exact .block hlast hc hp (by rw [hva, hs, hre, hrec]) hr

/-! ## Passes -/

section Pass

variable {σ : Type} {pass : Pass σ}

/-- A pass changes the fields of the records only. -/
def Pass.Local (pass : Pass σ) : Prop :=
  ∀ r s x, ¬ (r.place ≤ x ∧ x < r.place + r.width) → pass.view (pass.fix r s) x = pass.view s x

/-- The records handled by a pass one after the other. -/
def Pass.fixAll (pass : Pass σ) (rs : List Record) (s : σ) : σ :=
  rs.foldl (fun s r => pass.fix r s) s

theorem Pass.Local.fixAll (h : pass.Local) {s : σ}
    (hx : ∀ r ∈ rs, ¬ (r.place ≤ x ∧ x < r.place + r.width)) :
    pass.view (pass.fixAll rs s) x = pass.view s x := by
  induction rs generalizing s with
  | nil => rfl
  | cons r rs ih =>
    obtain ⟨hr, hrs⟩ := forall_mem_cons.mp hx
    exact (ih hrs).trans (h r s x hr)

/-- **A pass over the records of one block.** -/
theorem runRecords_eq (hl : pass.Local) {s : σ}
    (hre : recordsAt d (pass.view s) va n reloc = some rs)
    (hu : ∀ r ∈ rs, Apart r.place r.width reloc (2 * n)) :
    runRecords pass d va n reloc s = (pass.fixAll rs s, none) := by
  induction n generalizing reloc s rs with
  | zero =>
    obtain rfl := some.inj hre
    rfl
  | succ n ih =>
    rw [recordsAt] at hre
    rw [runRecords]
    generalize le (pass.view s) reloc 2 = word at hre
    cases hp : d.address (add32 va (word % 4096)) with
    | none => simp [hp] at hre
    | some place =>
      cases ht : relocType (word / 4096) with
      | none => simp [hp, ht] at hre
      | some type =>
        simp only [hp, ht] at hre
        obtain ⟨rest, hres, rfl⟩ := map_eq_some_iff.mp hre
        obtain ⟨hf, ho⟩ := forall_mem_cons.mp hu
        -- the field of this record is none of the records to come
        have hs : recordsAt d (pass.view (pass.fix ⟨type, place⟩ s)) va n (reloc + 2) =
            recordsAt d (pass.view s) va n (reloc + 2) := by
          refine recordsAt_congr fun x hlo hhi => hl _ s x ?_
          rintro ⟨hlo', hhi'⟩
          have := hf x hlo' hhi'
          omega
        refine ih (hs.trans hres) fun r hr => ?_
        intro x hlo hhi
        have := ho r hr x hlo hhi
        omega

/-- A check that lets pass what the first pass lets pass, from the start of the directory on. -/
def Pass.Lenient (pass : Pass σ) (d : Directory) : Prop :=
  ∀ base size, d.start ≤ base → size < 2 ^ 32 → checkBlock d base size = true →
    pass.check d base size = true

theorem checkBlock_iff {size : ℕ} : checkBlock d base size = true ↔
    size ≠ 0 ∧ base ≤ 2 ^ 64 - 1 - size ∧ add64 base size ≤ add64 d.start d.size := by
  unfold checkBlock
  split_ifs <;> simp <;> omega

/-- **A pass over all blocks handles all records.** -/
theorem Scanned.returns (hloc : pass.Local) (hl : pass.Lenient d) {s : σ}
    (h : Scanned d m base blocks rs) (hsta : d.start ≤ base)
    (hsa : SameBlocks blocks m (pass.view s)) (hu : Unread rs blocks) :
    Returns (blockStep pass d) (s, base) (pass.fixAll rs s, none) := by
  have hs := h.congr hsa
  clear h hsa
  induction hbl : blocks generalizing base s rs blocks with
  | nil =>
    subst hbl
    cases hs with
    | done hlast =>
      apply returns_of_inr
      simp only [blockStep, hlast, if_true]
      rfl
  | cons b tail ih =>
    subst hbl
    cases hs with
    | @block page _ _ rs rest hlast hc hp hrec hre =>
      have hsp := recordCount_le (le (pass.view s) (base + 4) 4)
      have hru := runRecords_eq hloc hrec fun r hr => by
        have hapart := hu r (mem_append_left _ hr) _ mem_cons_self
        intro x hlo hhi
        have := hapart x hlo hhi
        dsimp only at this
        omega
      obtain ⟨-, hw, -⟩ := checkBlock_iff.mp hc
      have hsi := le_lt (pass.view s) (base + 4) 4
      have hst : blockStep pass d (s, base) =
          .inl (pass.fixAll rs s, base + le (pass.view s) (base + 4) 4) := by
        simp only [blockStep, hl base _ hsta (by omega) hc, hp, hru, Bool.not_true,
          Bool.false_eq_true, if_false, not_le.mpr hlast]
        rw [add64_of_lt (by omega)]
      refine (returns_inl_iff hst).mpr ?_
      rw [show pass.fixAll (rs ++ rest) s = pass.fixAll rest (pass.fixAll rs s) from foldl_append]
      -- the records of this block leave the blocks to come as they are
      have hk : SameBlocks tail (pass.view s) (pass.view (pass.fixAll rs s)) := by
        intro b hb x hlo hhi
        refine hloc.fixAll fun r hr hin => ?_
        have := hu r (mem_append_left _ hr) b (mem_cons_of_mem _ hb) x hin.1 hin.2
        omega
      refine ih (by omega) ?_ (hre.congr hk) rfl
      exact fun r hr b hb =>
        hu r (mem_append_right _ hr) b (mem_cons_of_mem _ hb)

end Pass

/-! ## The first pass -/

section First

variable {adjust : ℕ}

theorem fixRecord_mem (adjust : ℕ) (r : Record) (s : Relocating) :
    (fixRecord adjust r s).mem = Edk2.adjust s.mem r.place r.width (r.amount adjust) := by
  unfold fixRecord
  cases s.fixupData <;> rfl

theorem firstPass_local (adjust : ℕ) : (firstPass adjust).Local := by
  intro r s x hx
  change (fixRecord adjust r s).mem x = s.mem x
  rw [fixRecord_mem, adjust_of_not hx]

/-- **The first pass adds its amounts to all fields.** -/
theorem fixRecords_mem (adjust : ℕ) (rs : List Record) (s : Relocating) :
    ((firstPass adjust).fixAll rs s).mem =
      adjustAll Record.place Record.width (Record.amount adjust) rs s.mem := by
  induction rs generalizing s with
  | nil => rfl
  | cons r rs ih =>
    refine (ih (fixRecord adjust r s)).trans ?_
    rw [fixRecord_mem, adjustAll_cons]

/-! ### The log -/

theorem le_alignPointer (p k : ℕ) : p ≤ alignPointer p k := Nat.le_add_right _ _

/-- The log at `p` holds `val r` for each of the records, in their order. -/
def LogShows (log : Memory) (val : Record → ℕ) : ℕ → List Record → Prop
  | _, [] => True
  | p, r :: rs =>
    le log (alignPointer p r.type.logAlign) r.width = val r ∧
      LogShows log val (alignPointer p r.type.logAlign + r.width) rs

/-- The end of the log at `p`. -/
def logEnd (p : ℕ) (rs : List Record) : ℕ :=
  rs.foldl (fun p r => alignPointer p r.type.logAlign + r.width) p

/-- The notes lie alike in every buffer with the alignment of a pool block. -/
theorem logEnd_add (k p : ℕ) (rs : List Record) : logEnd (8 * k + p) rs = 8 * k + logEnd p rs := by
  induction rs generalizing p with
  | nil => rfl
  | cons r rs ih =>
    have hal : alignPointer (8 * k + p) r.type.logAlign =
        8 * k + alignPointer p r.type.logAlign := by
      unfold alignPointer
      cases r.type <;> simp only [RelocType.logAlign] <;> omega
    refine Eq.trans ?_ (ih _)
    change logEnd (_ + _) rs = _
    rw [hal, Nat.add_assoc]

variable {p : ℕ}

theorem LogShows.congr {log log' : Memory} (h : LogShows log val p rs)
    (hs : ∀ x, p ≤ x → log' x = log x) : LogShows log' val p rs := by
  induction rs generalizing p with
  | nil => trivial
  | cons r rs ih =>
    have hle := le_alignPointer p r.type.logAlign
    refine ⟨?_, ih h.2 fun x hx => hs x (by omega)⟩
    rw [← h.1]
    exact le_congr fun i hi => hs _ (by omega)

theorem exists_logShows (val : Record → ℕ) (p : ℕ) (rs : List Record) :
    ∃ log, LogShows log (fun r => val r % 256 ^ r.width) p rs := by
  induction rs generalizing p with
  | nil => exact ⟨fun _ => 0, trivial⟩
  | cons r rs ih =>
    obtain ⟨log, hl⟩ := ih (alignPointer p r.type.logAlign + r.width)
    refine ⟨storeBytes log (alignPointer p r.type.logAlign) (leBytes r.width (val r)), ?_, ?_⟩
    · exact le_storeBytes _ _ _ _
    · exact hl.congr fun x hx => storeBytes_of_le (by rwa [length_leBytes])

theorem fixRecord_log (adjust : ℕ) (r : Record) {s : Relocating}
    (hp : s.fixupData = some p) :
    (fixRecord adjust r s).fixupData = some (alignPointer p r.type.logAlign + r.width) ∧
      (fixRecord adjust r s).log = storeBytes s.log (alignPointer p r.type.logAlign)
        (leBytes r.width (le (fixRecord adjust r s).mem r.place r.width)) := by
  simp only [fixRecord, hp, and_self]

theorem fixRecords_fixupData (rs : List Record) (s : Relocating) :
    ((firstPass adjust).fixAll rs s).fixupData = s.fixupData.map (logEnd · rs) := by
  induction rs generalizing s with
  | nil => simp [Pass.fixAll, logEnd]
  | cons r rs ih =>
    refine (ih (fixRecord adjust r s)).trans ?_
    unfold fixRecord
    cases s.fixupData <;> rfl

theorem fixRecords_log_below {s : Relocating} (hp : s.fixupData = some p) (hx : x < p) :
    ((firstPass adjust).fixAll rs s).log x = s.log x := by
  induction rs generalizing s p with
  | nil => rfl
  | cons r rs ih =>
    obtain ⟨hnext, hl⟩ := fixRecord_log adjust r hp
    have hle := le_alignPointer p r.type.logAlign
    refine (ih hnext (by omega)).trans ?_
    rw [hl, storeBytes_of_lt (by omega)]

/-- **The log of the first pass holds what the fields then hold.** -/
theorem fixRecords_log {s : Relocating} (hp : s.fixupData = some p)
    (hapart : rs.Pairwise (FieldsApart Record.place Record.width)) :
    LogShows ((firstPass adjust).fixAll rs s).log
      (fun r => le ((firstPass adjust).fixAll rs s).mem r.place r.width) p rs := by
  induction rs generalizing s p with
  | nil => trivial
  | cons r rs ih =>
    obtain ⟨hr, hrs⟩ := pairwise_cons.mp hapart
    obtain ⟨hnext, hl⟩ := fixRecord_log adjust r hp
    have hla := ih hnext hrs
    refine ⟨?_, hla⟩
    -- later notes are written behind this one, and later fields lie apart from this one
    have hn : le ((firstPass adjust).fixAll rs (fixRecord adjust r s)).log
        (alignPointer p r.type.logAlign) r.width =
        le (fixRecord adjust r s).log (alignPointer p r.type.logAlign) r.width :=
      le_congr fun i hi => fixRecords_log_below hnext (by omega)
    have hf : le ((firstPass adjust).fixAll rs (fixRecord adjust r s)).mem r.place r.width =
        le (fixRecord adjust r s).mem r.place r.width := by
      rw [fixRecords_mem, le_adjustAll_of_apart fun t ht => (hr t ht).symm]
    refine hn.trans (Eq.trans ?_ hf.symm)
    rw [hl, le_storeBytes, Nat.mod_eq_of_lt (le_lt _ _ _)]

end First

/-! ## The runtime pass -/

section Runtime

variable {adjust : ℕ} {log : Memory}

theorem refixRecord_mem (adjust : ℕ) (log : Memory) (r : Record) (s : Revisiting) :
    (refixRecord adjust log r s).mem = Edk2.adjust s.mem r.place r.width
      (if le log (alignPointer s.fixupData r.type.logAlign) r.width = le s.mem r.place r.width
        then r.amount adjust else 0) := by
  unfold refixRecord
  dsimp only
  split_ifs
  · rfl
  · exact (adjust_eq_self (Nat.zero_mod _)).symm

theorem runtimePass_local (adjust : ℕ) (log : Memory) : (runtimePass adjust log).Local := by
  intro r s x hx
  change (refixRecord adjust log r s).mem x = s.mem x
  rw [refixRecord_mem, adjust_of_not hx]

theorem runtimePass_lenient (adjust : ℕ) (log : Memory) (d : Directory) :
    (runtimePass adjust log).Lenient d := by
  intro base size hs hlt hc
  obtain ⟨hne, hw, he⟩ := checkBlock_iff.mp hc
  change checkBlockForRuntime d base size = true
  have hle : add64 d.start d.size ≤ d.start + d.size := by
    unfold add64
    exact Nat.mod_le _ _
  have hsi : size ≤ d.size := by
    rcases lt_or_ge (base + size) (2 ^ 64) with hlt | hge
    · rw [add64_of_lt hlt] at he
      omega
    · omega
  unfold checkBlockForRuntime
  rw [if_neg (by omega), if_neg (by omega)]

/-- **The runtime pass adds its amounts to the fields that hold what was noted.** -/
theorem refixRecords_mem {s : Revisiting}
    (hl : LogShows log val s.fixupData rs)
    (hapart : rs.Pairwise (FieldsApart Record.place Record.width)) :
    ((runtimePass adjust log).fixAll rs s).mem =
      adjustAll Record.place Record.width
        (fun r => if val r = le s.mem r.place r.width then r.amount adjust else 0) rs s.mem := by
  induction rs generalizing s with
  | nil => rfl
  | cons r rs ih =>
    obtain ⟨hr, hrs⟩ := pairwise_cons.mp hapart
    refine (ih (s := refixRecord adjust log r s) hl.2 hrs).trans ?_
    rw [refixRecord_mem, hl.1]
    refine adjustAll_congr fun t ht => ?_
    rw [le_adjust_of_apart (hr t ht)]

theorem refixRecords_still {s : Revisiting}
    (hstill : ∀ r ∈ rs, r.amount adjust % 256 ^ r.width = 0) :
    ((runtimePass adjust log).fixAll rs s).mem = s.mem := by
  induction rs generalizing s with
  | nil => rfl
  | cons r rs ih =>
    obtain ⟨hr, hrs⟩ := forall_mem_cons.mp hstill
    refine (ih (s := refixRecord adjust log r s) hrs).trans ?_
    rw [refixRecord_mem, adjust_eq_self]
    split_ifs
    · exact hr
    · exact Nat.zero_mod _

end Runtime

end Edk2.PeCoff

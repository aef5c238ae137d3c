import Edk2.Base
import Mathlib.Data.List.Pairwise
import Mathlib.Tactic.SplitIfs

/-!
# The search for free pages

`CoreFindFreePagesI` of `Page.c`, without page guards: one pass over the descriptors of
`gMemoryMap`, in any order, that keeps the highest end a range of the pages asked for can have.

The end of a descriptor is clipped at `MaxAddress` and rounded down to the alignment, in 64 bits.
Two ends are misjudged. Below the first multiple of the alignment the rounded end is `0`, and the
byte before it is the last of the address space: low memory looks as if it had room up there. And a
descriptor of the whole address space has, in 64 bits, no length.

## Main results

* `PageSearch.correct_iff`: the search is right iff no end is misjudged with consequences
-/

namespace Edk2.Mem

/-- `EFI_MEMORY_TYPE`. The type is open: OEM and OS loader types share its values. -/
abbrev EfiMemoryType := ℕ

def efiConventionalMemory : EfiMemoryType := 7

/-- `MEMORY_MAP`, as far as the search reads it: the range `[startAddr, endAddr]`. -/
structure MemoryMapEntry where
  type : EfiMemoryType
  startAddr : ℕ
  endAddr : ℕ
  deriving DecidableEq

/-- `Value & ~(Alignment - 1)`. -/
def alignDown (value alignment : ℕ) : ℕ := value &&& (2 ^ 64 - 1 - (alignment - 1))

/-- `DescEnd`, clipped at `MaxAddress` and rounded down to the alignment. -/
def descEnd (maxAddress alignment : ℕ) (entry : MemoryMapEntry) : ℕ :=
  let last := if maxAddress ≤ entry.endAddr then maxAddress else entry.endAddr
  sub64 (alignDown (add64 last 1) alignment) 1

/-- One turn of the loop: `Target` is the best end address so far. -/
def bestEnd (maxAddress minAddress numberOfBytes alignment target : ℕ) (entry : MemoryMapEntry) :
    ℕ :=
  if entry.type ≠ efiConventionalMemory then target
  else if maxAddress ≤ entry.startAddr ∨ entry.endAddr < minAddress then target
  else
    let last := descEnd maxAddress alignment entry
    if last < entry.startAddr then target
    else if add64 (sub64 last entry.startAddr) 1 < numberOfBytes then target
    else if add64 (sub64 last numberOfBytes) 1 < minAddress then target
    else if target < last then last else target

/-- `MaxAddress`, moved down to the end of a page. -/
def pageEnd (maxAddress : ℕ) : ℕ :=
  if maxAddress % 4096 ≠ 4095 then alignDown (sub64 maxAddress 4096) 4096 ||| 4095 else maxAddress

/-- `CoreFindFreePagesI` with `NeedGuard` off: the base of the highest free range, or `0`. -/
def coreFindFreePagesI (memoryMap : List MemoryMapEntry)
    (maxAddress minAddress numberOfPages alignment : ℕ) : ℕ :=
  if maxAddress < 4095 ∨ numberOfPages = 0 then 0
  else
    let numberOfBytes := numberOfPages * 4096 % 2 ^ 64
    let target := memoryMap.foldl (bestEnd (pageEnd maxAddress) minAddress numberOfBytes alignment) 0
    let target := sub64 target (sub64 numberOfBytes 1)
    if target % 4096 ≠ 0 then 0 else target

/-! ## What is asked for -/

/-- A descriptor of whole pages of the address space. -/
structure MemoryMapEntry.WellFormed (entry : MemoryMapEntry) : Prop where
  start_mod : entry.startAddr % 4096 = 0
  end_mod : entry.endAddr % 4096 = 4095
  start_le : entry.startAddr ≤ entry.endAddr
  end_lt : entry.endAddr < 2 ^ 64

def Apart (a b : MemoryMapEntry) : Prop := a.endAddr < b.startAddr ∨ b.endAddr < a.startAddr

instance : Std.Symm Apart := ⟨fun _ _ => Or.symm⟩

/-- A memory map of disjoint descriptors and the arguments of a search. The alignment is a power of
two of at least a page, the pages asked for are a multiple of it, and their bytes can be counted. -/
structure PageSearch where
  memoryMap : List MemoryMapEntry
  maxAddress : ℕ
  minAddress : ℕ
  numberOfPages : ℕ
  alignmentBits : ℕ
  wellFormed : ∀ entry ∈ memoryMap, entry.WellFormed
  disjoint : memoryMap.Pairwise Apart
  maxAddress_lt : maxAddress < 2 ^ 64
  bits_ge : 12 ≤ alignmentBits
  bits_lt : alignmentBits < 64
  pages_pos : 0 < numberOfPages
  pages_dvd : 2 ^ alignmentBits / 4096 ∣ numberOfPages
  pages_lt : numberOfPages * 4096 < 2 ^ 64

namespace PageSearch

variable (q : PageSearch) {e : MemoryMapEntry} {t : ℕ}

def alignment : ℕ := 2 ^ q.alignmentBits

def bytes : ℕ := q.numberOfPages * 4096

def result : ℕ :=
  coreFindFreePagesI q.memoryMap q.maxAddress q.minAddress q.numberOfPages q.alignment

/-- The pages asked for fit into the free descriptor `e` from `t` on. -/
structure FitsIn (e : MemoryMapEntry) (t : ℕ) : Prop where
  type_eq : e.type = efiConventionalMemory
  aligned : q.alignment ∣ t
  min_le : q.minAddress ≤ t
  le_max : t + q.bytes - 1 ≤ q.maxAddress
  start_le : e.startAddr ≤ t
  le_end : t + q.bytes - 1 ≤ e.endAddr

/-- The pages asked for fit into one free descriptor from `t` on. -/
def Fits (t : ℕ) : Prop := ∃ e ∈ q.memoryMap, q.FitsIn e t

/-- The answer is the highest base at which the pages fit, and `0` only if they fit at no other
address. -/
def Correct : Prop :=
  (q.result ≠ 0 → q.Fits q.result ∧ ∀ t, q.Fits t → t ≤ q.result) ∧
    (q.result = 0 → ¬ ∃ t, t ≠ 0 ∧ q.Fits t)

/-- The first address behind `e`, clipped at `MaxAddress` and rounded down to the alignment. -/
def reach (e : MemoryMapEntry) : ℕ :=
  (min (pageEnd q.maxAddress) e.endAddr + 1) / q.alignment * q.alignment

/-- Low memory that looks as if it reached to the end of the address space: it is free and has a
page within the bounds, but comes to no multiple of the alignment except `0`. -/
structure Phantom (e : MemoryMapEntry) : Prop where
  type_eq : e.type = efiConventionalMemory
  page_le : 4095 ≤ q.maxAddress
  reach_eq : q.reach e = 0
  start_pos : 0 < e.startAddr
  start_lt : e.startAddr < pageEnd q.maxAddress
  min_le : q.minAddress ≤ e.endAddr
  start_le : e.startAddr + q.bytes ≤ 2 ^ 64
  bytes_le : q.minAddress + q.bytes ≤ 2 ^ 64

/-- The whole address space, free and within the bounds. -/
structure Whole (e : MemoryMapEntry) : Prop where
  type_eq : e.type = efiConventionalMemory
  page_le : 4095 ≤ q.maxAddress
  start_eq : e.startAddr = 0
  reach_eq : q.reach e = 2 ^ 64

/-- No end is misjudged with consequences: where low memory looks like the end of the address space,
the pages do fit there; and where one free descriptor is the whole address space, they do not. -/
structure Judged : Prop where
  low : ∀ e ∈ q.memoryMap, q.Phantom e → q.Fits (2 ^ 64 - q.bytes)
  whole : ∀ e ∈ q.memoryMap, q.Whole e → 2 ^ 64 < q.minAddress + q.bytes

/-! ## One descriptor -/

theorem alignDown_eq {value k : ℕ} (hv : value < 2 ^ 64) (hk : k < 64) :
    alignDown value (2 ^ k) = value / 2 ^ k * 2 ^ k := by
  have hb : 64 = k + (64 - k) := by omega
  have hp : 2 ^ 64 = 2 ^ k * 2 ^ (64 - k) := by rw [← Nat.pow_add, ← hb]
  have hm : 2 ^ 64 - 1 - (2 ^ k - 1) = (2 ^ (64 - k) - 1) <<< k := by
    rw [Nat.shiftLeft_eq, Nat.sub_mul, Nat.mul_comm]
    have hpos := Nat.two_pow_pos k
    omega
  rw [alignDown, hm]
  exact and_highMask (hb ▸ hv)

theorem pageEnd_spec {m : ℕ} (hm : m < 2 ^ 64) (hp : 4095 ≤ m) :
    pageEnd m % 4096 = 4095 ∧ pageEnd m ≤ m ∧ m < pageEnd m + 4096 := by
  unfold pageEnd
  split_ifs with hmo
  · rw [sub64_of_le hm (by omega), show 4096 = 2 ^ 12 from rfl,
      alignDown_eq (by omega) (by decide), ← Nat.shiftLeft_eq, shiftLeft_or_low (by decide)]
    omega
  · omega

theorem page_dvd : 4096 ∣ q.alignment := Nat.pow_dvd_pow 2 q.bits_ge

theorem alignment_dvd : q.alignment ∣ 2 ^ 64 := Nat.pow_dvd_pow 2 (Nat.le_of_lt q.bits_lt)

theorem dvd_bytes : q.alignment ∣ q.bytes := by
  rw [← Nat.div_mul_cancel q.page_dvd]
  exact Nat.mul_dvd_mul_right q.pages_dvd 4096

theorem le_bytes : 4096 ≤ q.bytes := Nat.le_mul_of_pos_left 4096 q.pages_pos

theorem bytes_lt : q.bytes < 2 ^ 64 := q.pages_lt

theorem bytes_mod : q.bytes % 4096 = 0 := Nat.mul_mod_left _ _

theorem reach_le : q.reach e ≤ min (pageEnd q.maxAddress) e.endAddr + 1 := Nat.div_mul_le_self _ _

theorem le_reach (hd : q.alignment ∣ t) (h : t ≤ min (pageEnd q.maxAddress) e.endAddr + 1) :
    t ≤ q.reach e := by
  rw [← Nat.div_mul_cancel hd]
  exact Nat.mul_le_mul_right _ (Nat.div_le_div_right h)

/-- `DescEnd` of a descriptor in this search. -/
def endOf (e : MemoryMapEntry) : ℕ := descEnd (pageEnd q.maxAddress) q.alignment e

theorem endOf_lt : q.endOf e < 2 ^ 64 := sub64_lt _ _

theorem endOf_add_one (he : e.endAddr < 2 ^ 64) :
    q.endOf e + 1 = if q.reach e = 0 then 2 ^ 64 else q.reach e := by
  have hc : (if pageEnd q.maxAddress ≤ e.endAddr then pageEnd q.maxAddress else e.endAddr) =
      min (pageEnd q.maxAddress) e.endAddr := by
    split_ifs <;> omega
  have hle := q.reach_le (e := e)
  simp only [endOf, descEnd, hc]
  -- only the sum of the last byte and one may wrap
  by_cases ht : min (pageEnd q.maxAddress) e.endAddr + 1 = 2 ^ 64
  · have hr : q.reach e = 2 ^ 64 := by rw [reach, ht, Nat.div_mul_cancel q.alignment_dvd]
    have hw : add64 (min (pageEnd q.maxAddress) e.endAddr) 1 = 0 := by
      unfold add64
      omega
    rw [hr, hw, alignDown, Nat.zero_and]
    decide +kernel
  · rw [add64_of_lt (by omega), alignment, alignDown_eq (by omega) q.bits_lt]
    change sub64 (q.reach e) 1 + 1 = _
    unfold sub64
    split_ifs <;> omega

/-- When the search uses a descriptor, in numbers. Only the length can wrap. -/
structure Uses (e : MemoryMapEntry) : Prop where
  type_eq : e.type = efiConventionalMemory
  start_lt : e.startAddr < pageEnd q.maxAddress
  min_le : q.minAddress ≤ e.endAddr
  start_le : e.startAddr ≤ q.endOf e
  room : q.bytes ≤ (q.endOf e + 1 - e.startAddr) % 2 ^ 64
  bytes_le : q.minAddress + q.bytes ≤ q.endOf e + 1

theorem bestEnd_spec (target : ℕ) :
    let r := bestEnd (pageEnd q.maxAddress) q.minAddress q.bytes q.alignment target e
    q.Uses e ∧ r = max target (q.endOf e) ∨ ¬ q.Uses e ∧ r = target := by
  have hlt := q.endOf_lt (e := e)
  have hb := q.le_bytes
  have hl : ∀ b ≤ q.endOf e + 1,
      add64 (sub64 (q.endOf e) b) 1 = (q.endOf e + 1 - b) % 2 ^ 64 := by
    unfold add64 sub64
    omega
  intro r
  have hr : r = bestEnd (pageEnd q.maxAddress) q.minAddress q.bytes q.alignment target e := rfl
  have he : descEnd (pageEnd q.maxAddress) q.alignment e = q.endOf e := rfl
  simp only [bestEnd, he] at hr
  split_ifs at hr with ht hbo hs hro hm hbe
  · exact .inr ⟨fun h => ht h.type_eq, hr⟩
  · refine .inr ⟨fun h => ?_, hr⟩
    have := h.start_lt
    have := h.min_le
    omega
  · exact .inr ⟨fun h => Nat.not_lt.mpr h.start_le hs, hr⟩
  · rw [hl _ (by omega)] at hro
    exact .inr ⟨fun h => Nat.not_lt.mpr h.room hro, hr⟩
  all_goals
    rw [hl _ (by omega)] at hro
    rw [hl _ (by omega)] at hm
  · refine .inr ⟨fun h => ?_, hr⟩
    have := h.bytes_le
    omega
  · exact .inl ⟨⟨not_not.mp ht, by omega, by omega, by omega, by omega, by omega⟩, by omega⟩
  · exact .inl ⟨⟨not_not.mp ht, by omega, by omega, by omega, by omega, by omega⟩, by omega⟩

variable {q : PageSearch}

theorem Uses.fitsIn (h : q.Uses e) (he : e.WellFormed)
    (hmax : 4095 ≤ q.maxAddress) (hr : ¬ q.Phantom e) :
    ∃ t, q.FitsIn e t ∧ t + q.bytes = q.endOf e + 1 := by
  obtain ⟨ht, hlt, hm, hs, hro, hb⟩ := h
  have hen := q.endOf_add_one he.end_lt
  have hp := q.le_bytes
  split_ifs at hen with hre
  · exact (hr ⟨ht, hmax, hre, by omega, hlt, hm, by omega, by omega⟩).elim
  · have hle := q.reach_le (e := e)
    have hpa := (pageEnd_spec q.maxAddress_lt hmax).2.1
    refine ⟨q.reach e - q.bytes, ⟨ht, ?_, by omega, by omega, by omega, by omega⟩, by omega⟩
    exact Nat.dvd_sub (Nat.dvd_mul_left _ _) q.dvd_bytes

/-- A descriptor in which the pages fit is used, and its end is no lower, unless it is the whole
address space. -/
theorem FitsIn.uses (h : q.FitsIn e t) (he : e.WellFormed)
    (hp : ¬ q.Whole e) : q.Uses e ∧ t + q.bytes ≤ q.endOf e + 1 := by
  obtain ⟨ht, hd, hmi, hlast, hs, hen⟩ := h
  have hb := q.le_bytes
  have hmax : 4095 ≤ q.maxAddress := by omega
  obtain ⟨hm, -, hnext⟩ := pageEnd_spec q.maxAddress_lt hmax
  have hpa : 4096 ∣ t + q.bytes :=
    Nat.dvd_trans q.page_dvd (Nat.dvd_add hd q.dvd_bytes)
  have hr : t + q.bytes ≤ q.reach e :=
    q.le_reach (Nat.dvd_add hd q.dvd_bytes) (by omega)
  have hle := q.reach_le (e := e)
  have hlt := he.end_lt
  have hl : ¬ (e.startAddr = 0 ∧ q.reach e = 2 ^ 64) := fun h => hp ⟨ht, hmax, h.1, h.2⟩
  have ho := q.endOf_add_one hlt
  rw [if_neg (by omega)] at ho
  exact ⟨⟨ht, by omega, by omega, by omega, by omega, by omega⟩, by omega⟩

/-- A phantom is used, and ends with the address space. -/
theorem Phantom.uses (h : q.Phantom e) (he : e.WellFormed) :
    q.Uses e ∧ q.endOf e + 1 = 2 ^ 64 := by
  have hen := q.endOf_add_one he.end_lt
  rw [if_pos h.reach_eq] at hen
  obtain ⟨ht, -, -, hpos, hlt, hm, hs, hb⟩ := h
  have hp := q.le_bytes
  exact ⟨⟨ht, hlt, hm, by omega, by omega, by omega⟩, hen⟩

/-! ## The whole search -/

/-- The best end address that the loop has found in `l`. -/
def best (l : List MemoryMapEntry) (target : ℕ) : ℕ :=
  l.foldl (bestEnd (pageEnd q.maxAddress) q.minAddress q.bytes q.alignment) target

theorem best_spec (l : List MemoryMapEntry) (target : ℕ) :
    target ≤ q.best l target ∧ (∀ e ∈ l, q.Uses e → q.endOf e ≤ q.best l target) ∧
      (q.best l target = target ∨ ∃ e ∈ l, q.Uses e ∧ q.endOf e = q.best l target) := by
  induction l generalizing target with
  | nil => exact ⟨Nat.le_refl _, fun _ h => absurd h List.not_mem_nil, .inl rfl⟩
  | cons e l ih =>
    obtain ⟨hle, ha, hb⟩ := ih
      (bestEnd (pageEnd q.maxAddress) q.minAddress q.bytes q.alignment target e)
    change target ≤ q.best l _ ∧ (∀ e' ∈ e :: l, _ → _ ≤ q.best l _) ∧ (q.best l _ = _ ∨
      ∃ e' ∈ e :: l, _ ∧ _ = q.best l _)
    rcases q.bestEnd_spec (e := e) target with ⟨hu, hs⟩ | ⟨hu, hs⟩
    · refine ⟨by omega, List.forall_mem_cons.mpr ⟨fun _ => by omega, ha⟩, ?_⟩
      rcases hb with hsa | ⟨e', he', hb⟩
      · by_cases hlt : target < q.endOf e
        · exact .inr ⟨e, List.mem_cons_self, hu, by omega⟩
        · exact .inl (by omega)
      · exact .inr ⟨e', List.mem_cons_of_mem _ he', hb⟩
    · refine ⟨by omega, List.forall_mem_cons.mpr ⟨fun h => absurd h hu, ha⟩, ?_⟩
      rcases hb with hsa | ⟨e', he', hb⟩
      · exact .inl (hsa.trans hs)
      · exact .inr ⟨e', List.mem_cons_of_mem _ he', hb⟩

theorem result_spec (hmax : 4095 ≤ q.maxAddress) :
    (q.result = 0 ∧ ∀ e ∈ q.memoryMap, ¬ q.Uses e) ∨
      ∃ e ∈ q.memoryMap, q.Uses e ∧ (∀ e' ∈ q.memoryMap, q.Uses e' → q.endOf e' ≤ q.endOf e) ∧
        ∀ t, 4096 ∣ t → t + q.bytes = q.endOf e + 1 → q.result = t := by
  have hb := q.le_bytes
  have hlt := q.bytes_lt
  have hm := q.bytes_mod
  have hr : q.result = if sub64 (q.best q.memoryMap 0) (q.bytes - 1) % 4096 ≠ 0 then 0
      else sub64 (q.best q.memoryMap 0) (q.bytes - 1) := by
    have hgo : ¬ (q.maxAddress < 4095 ∨ q.numberOfPages = 0) := by
      have := q.pages_pos
      omega
    rw [result, coreFindFreePagesI, if_neg hgo, Nat.mod_eq_of_lt q.pages_lt,
      ← sub64_of_le hlt (by omega)]
    rfl
  obtain ⟨-, ha, hz | ⟨e, he, hu, hen⟩⟩ := q.best_spec q.memoryMap 0
  · refine .inl ⟨?_, fun e he hu => ?_⟩
    · rw [hr, if_pos]
      unfold sub64
      omega
    · have := ha e he hu
      have := hu.bytes_le
      omega
  · rw [← hen] at ha hr
    refine .inr ⟨e, he, hu, ha, fun t ht hba => ?_⟩
    rw [hr, sub64_of_le q.endOf_lt (by omega), if_neg (by omega)]
    omega

theorem correct_of_lt (hmax : q.maxAddress < 4095) : q.Correct := by
  have hr : q.result = 0 := if_pos (.inl hmax)
  refine ⟨fun h => absurd hr h, ?_⟩
  rintro - ⟨t, -, e, -, h⟩
  have := h.le_max
  have := q.le_bytes
  omega

/-- The answer of a phantom has to be right by chance. -/
theorem Correct.low (h : q.Correct) (he : e ∈ q.memoryMap) (hp : q.Phantom e) :
    q.Fits (2 ^ 64 - q.bytes) := by
  have hlt := q.bytes_lt
  have hm := q.bytes_mod
  obtain ⟨hu, hen⟩ := hp.uses (q.wellFormed e he)
  rcases q.result_spec hp.page_le with ⟨-, hnone⟩ | ⟨e', -, -, hb, hr⟩
  · exact absurd hu (hnone e he)
  · have := hb e he hu
    have := q.endOf_lt (e := e')
    have hba := hr (2 ^ 64 - q.bytes) (by omega) (by omega)
    exact hba ▸ (h.1 (by omega)).1

theorem Correct.whole (h : q.Correct) (he : e ∈ q.memoryMap) (hw : q.Whole e) :
    2 ^ 64 < q.minAddress + q.bytes := by
  obtain ⟨ht, hmax, hs, hre⟩ := hw
  have hb := q.le_bytes
  have hlt := q.bytes_lt
  have hle := q.reach_le (e := e)
  obtain ⟨-, hp, -⟩ := pageEnd_spec q.maxAddress_lt hmax
  by_contra hro
  rcases q.result_spec hmax with ⟨hr, -⟩ | ⟨e', he', hu, -⟩
  · exact h.2 hr ⟨2 ^ 64 - q.bytes, by omega, e, he, ht,
      Nat.dvd_sub q.alignment_dvd q.dvd_bytes, by omega, by omega, by omega, by omega⟩
  · -- the descriptors are disjoint, so `e'` is `e`, whose length wraps to `0`
    obtain rfl : e = e' := by
      by_contra hne
      have := (q.wellFormed e' he').start_le
      have := (q.wellFormed e' he').end_lt
      rcases q.disjoint.forall he he' hne with hapart | hapart <;> omega
    have hen := q.endOf_add_one (q.wellFormed e he).end_lt
    rw [hre, if_neg (by decide)] at hen
    have := hu.room
    omega

theorem Judged.correct (h : q.Judged) (hmax : 4095 ≤ q.maxAddress) :
    q.Correct := by
  have hus : ∀ t, q.Fits t → ∃ e ∈ q.memoryMap, q.Uses e ∧ t + q.bytes ≤ q.endOf e + 1 := by
    rintro t ⟨e, he, hin⟩
    refine ⟨e, he, hin.uses (q.wellFormed e he) fun hw => ?_⟩
    have := h.whole e he hw
    have := hin.min_le
    have := hin.le_end
    have := (q.wellFormed e he).end_lt
    omega
  rcases q.result_spec hmax with ⟨hr, hnone⟩ | ⟨e, he, hu, hbe, hr⟩
  · refine ⟨fun h => absurd hr h, ?_⟩
    rintro - ⟨t, -, ht⟩
    obtain ⟨e, he, hu, -⟩ := hus t ht
    exact hnone e he hu
  · obtain ⟨t, hf, hb⟩ : ∃ t, q.Fits t ∧ t + q.bytes = q.endOf e + 1 := by
      by_cases hp : q.Phantom e
      · have hen := (hp.uses (q.wellFormed e he)).2
        have hlt := q.bytes_lt
        exact ⟨_, h.low e he hp, by omega⟩
      · obtain ⟨t, hin, hb⟩ := hu.fitsIn (q.wellFormed e he) hmax hp
        exact ⟨t, ⟨e, he, hin⟩, hb⟩
    have hh : ∀ t', q.Fits t' → t' ≤ t := by
      intro t' ht'
      obtain ⟨e', he', hu', hle⟩ := hus t' ht'
      have := hbe e' he' hu'
      omega
    have hd : 4096 ∣ t := by
      obtain ⟨_, _, hin⟩ := hf
      exact Nat.dvd_trans q.page_dvd hin.aligned
    rw [Correct, hr t hd hb]
    refine ⟨fun _ => ⟨hf, hh⟩, ?_⟩
    rintro hz ⟨t', hne, ht'⟩
    exact hne (Nat.le_zero.mp (hz ▸ hh t' ht'))

/-- **The search is right iff no end is misjudged with consequences.** -/
theorem correct_iff : q.Correct ↔ q.Judged := by
  refine ⟨fun h => ⟨fun _ => h.low, fun _ => h.whole⟩, fun h => ?_⟩
  rcases Nat.lt_or_ge q.maxAddress 4095 with hmax | hmax
  · exact q.correct_of_lt hmax
  · exact h.correct hmax

/-- 7 pages of low memory and 1 GB above them; 16 pages are wanted, aligned as on AArch64. -/
def lowSearch : PageSearch where
  memoryMap := [⟨efiConventionalMemory, 0x1000, 0x7FFF⟩,
    ⟨efiConventionalMemory, 0x40000000, 0x7FFFFFFF⟩]
  maxAddress := 0xFFFFFFFFFFFF
  minAddress := 0
  numberOfPages := 16
  alignmentBits := 16
  wellFormed := List.forall_mem_cons.mpr ⟨⟨rfl, rfl, by decide, by decide⟩,
    List.forall_mem_singleton.mpr ⟨rfl, rfl, by decide, by decide⟩⟩
  disjoint := List.pairwise_pair.mpr (.inl (by decide))
  maxAddress_lt := by decide
  bits_ge := by decide
  bits_lt := by decide
  pages_pos := by decide
  pages_dvd := by decide
  pages_lt := by decide

/-- The search answers with an address at the end of the address space, past `MaxAddress`, although
there is free memory enough. -/
theorem not_correct_low : lowSearch.result = 0xFFFFFFFFFFFF0000 ∧ ¬ lowSearch.Correct := by
  have hr : lowSearch.result = 0xFFFFFFFFFFFF0000 := by decide +kernel
  refine ⟨hr, fun h => ?_⟩
  obtain ⟨⟨e, -, hin⟩, -⟩ := h.1 (hr ▸ by decide)
  have hle := hin.le_max
  exact absurd hle (by decide +kernel)

end PageSearch

end Edk2.Mem

import Edk2.Gcd.Map
import Edk2.Lib.Span

/-!
# What the edits of a GCD map do

A GCD map says, for each address, a descriptor. The search finds the entries that hold the two
ends of a range; the conversion loop clips them to the range and updates them one by one; the
cleanup changes nothing that the map says. All of it under the two conditions that carry the
results of this directory: the map is a tiling, and the range does not wrap past `2 ^ 64`.

## Main results

* `coreSearchGcdMapEntry_covers`: the range found holds both ends
* `convertEntries_clips`: the conversion loop clips each entry to the range and updates it
* `convertEntries_edited`: the converted map is again a partition, and differs in the range only
-/

namespace Edk2.Gcd

open List Option

def GcdMapEntry.span (e : GcdMapEntry) : Span GcdDescriptor :=
  ⟨e.baseAddress, e.endAddress + 1, e.toGcdDescriptor⟩

/-- The descriptors that the map gives to the address `a`. -/
def descAt (map : List GcdMapEntry) (a : ℕ) : List GcdDescriptor := labelsAt (map.map (·.span)) a

@[simp] theorem descAt_nil (a : ℕ) : descAt [] a = [] := rfl

@[simp] theorem descAt_cons (e : GcdMapEntry) (l : List GcdMapEntry) (a : ℕ) :
    descAt (e :: l) a = e.span.labels a ++ descAt l a := rfl

@[simp] theorem descAt_append (l m : List GcdMapEntry) (a : ℕ) :
    descAt (l ++ m) a = descAt l a ++ descAt m a := by
  simp [descAt]

/-- The entries follow each other without gap from `lo` up to `hi`. -/
abbrev EntryTiles (lo : ℕ) (l : List GcdMapEntry) (hi : ℕ) : Prop :=
  Tiles (·.baseAddress) (·.endAddress + 1) lo l hi

variable {lo hi a s t : ℕ} {l rest : List GcdMapEntry} {d : GcdDescriptor}

theorem entryTiles_cons {e : GcdMapEntry} :
    EntryTiles lo (e :: l) hi ↔
      e.baseAddress = lo ∧ e.baseAddress ≤ e.endAddress ∧ EntryTiles (e.endAddress + 1) l hi := by
  rw [EntryTiles, tiles_cons, Nat.lt_succ_iff]
  exact and_congr_right fun h => by rw [h]

/-- The map is a sorted contiguous partition of `[0, max]`. -/
def Partition (max : ℕ) (map : List GcdMapEntry) : Prop := EntryTiles 0 map (max + 1)

instance (max : ℕ) (map : List GcdMapEntry) : Decidable (Partition max map) :=
  inferInstanceAs (Decidable (Tiles _ _ _ _ _))

theorem descAt_eq_nil_of_lt (h : EntryTiles lo l hi)
    (ha : a < lo ∨ hi ≤ a) : descAt l a = [] := by
  refine labelsAt_eq_nil fun s hs hc => ?_
  obtain ⟨e, he, rfl⟩ := mem_map.mp hs
  obtain ⟨h₁, -, h₃⟩ := h.bounds e he
  obtain ⟨h₄, h₅⟩ := hc
  simp only [GcdMapEntry.span] at h₄ h₅
  omega

theorem exists_descAt_eq (h : EntryTiles lo l hi)
    (h₁ : lo ≤ a) (h₂ : a < hi) : ∃ d, descAt l a = [d] := by
  obtain ⟨pre, e, post, rfl, he₁, he₂⟩ := h.exists_split h₁ h₂
  obtain ⟨mid, hp, rfl, hlt, hpo⟩ := tiles_append.mp h
  refine ⟨e.toGcdDescriptor, ?_⟩
  rw [descAt_append, descAt_cons, descAt_eq_nil_of_lt hp (Or.inr he₁),
    descAt_eq_nil_of_lt hpo (Or.inl he₂), Span.labels_of_contains ⟨he₁, he₂⟩]
  rfl

theorem mem_descAt_of_mem {map : List GcdMapEntry} {e : GcdMapEntry} (he : e ∈ map)
    (h : e.baseAddress ≤ a ∧ a ≤ e.endAddress) : e.toGcdDescriptor ∈ descAt map a :=
  mem_labelsAt.mpr ⟨e.span, mem_map_of_mem he, ⟨h.1, Nat.lt_succ_of_le h.2⟩, rfl⟩

/-- The entry holds an address of the range. -/
def GcdMapEntry.Meets (e : GcdMapEntry) (base length : ℕ) : Prop :=
  e.baseAddress < base + length ∧ base ≤ e.endAddress

instance (e : GcdMapEntry) (base length : ℕ) : Decidable (e.Meets base length) :=
  inferInstanceAs (Decidable (_ ∧ _))

theorem exists_meets_of_mem_descAt {map : List GcdMapEntry} {base length : ℕ}
    (hd : d ∈ descAt map a) (hlo : base ≤ a) (hhi : a < base + length) :
    ∃ e ∈ map, e.Meets base length ∧ d = e.toGcdDescriptor := by
  obtain ⟨s, hs, ⟨h₁, h₂⟩, rfl⟩ := mem_labelsAt.mp hd
  obtain ⟨e, he, rfl⟩ := mem_map.mp hs
  simp only [GcdMapEntry.span] at h₁ h₂
  exact ⟨e, he, ⟨by omega, by omega⟩, rfl⟩

theorem descAt_eq_of_mem
    (h : EntryTiles lo l hi) (hd : d ∈ descAt l a) : descAt l a = [d] := by
  by_cases ha : lo ≤ a ∧ a < hi
  · obtain ⟨d', hd'⟩ := exists_descAt_eq h ha.1 ha.2
    rw [hd', mem_singleton] at hd
    rw [hd', hd]
  · rw [descAt_eq_nil_of_lt h (by omega)] at hd
    cases hd

/-! ## The search -/

/-- The split holds `base` in its first entry and `last` in its last entry. -/
structure LinkRange.Covers (links : LinkRange) (base last : ℕ) (map : List GcdMapEntry) :
    Prop where
  split : map = links.before ++ (links.range ++ links.after)
  first : ∃ e rest, links.range = e :: rest ∧ e.baseAddress ≤ base ∧ base ≤ e.endAddress
  final : ∃ init e, links.range = init ++ [e] ∧ e.baseAddress ≤ last ∧ last ≤ e.endAddress

section Covers

variable {map : List GcdMapEntry} {links : LinkRange} {max base last : ℕ} {e : GcdMapEntry}

theorem LinkRange.Covers.mem (hc : links.Covers base last map) (he : e ∈ links.range) :
    e ∈ map := by
  rw [hc.split]
  simp [he]

/-- The entries between `StartLink` and `EndLink` tile a range. -/
theorem LinkRange.Covers.tiles (hp : Partition max map) (hc : links.Covers base last map) :
    ∃ s t, EntryTiles s links.range t := by
  rw [hc.1] at hp
  obtain ⟨s, -, hre⟩ := tiles_append.mp hp
  obtain ⟨t, hr, -⟩ := tiles_append.mp hre
  exact ⟨s, t, hr⟩

/-- Every entry between `StartLink` and `EndLink` has an address in the range. -/
theorem LinkRange.Covers.meets (hp : Partition max map) (hc : links.Covers base last map)
    (he : e ∈ links.range) : base ≤ e.endAddress ∧ e.baseAddress ≤ last := by
  obtain ⟨s, t, hr⟩ := hc.tiles hp
  obtain ⟨-, ⟨f, rest, hfi, -, hf⟩, ⟨init, g, hfin, hg, -⟩⟩ := hc
  have hle := (hr.bounds e he).2.1
  constructor
  · rw [hfi] at he hr
    rcases mem_cons.mp he with rfl | he
    · exact hf
    · have := (pairwise_cons.mp hr.pairwise).1 e he
      omega
  · rw [hfin] at he hr
    rcases mem_append.mp he with he | he
    · have := (pairwise_append.mp hr.pairwise).2.2 e he g (mem_singleton_self g)
      omega
    · exact mem_singleton.mp he ▸ hg

end Covers

/-- The loop keeps: what was passed since `StartLink` begins with an entry that holds `base`. -/
theorem searchLoop_covers {base last : ℕ} {links : LinkRange} :
    ∀ (before : List GcdMapEntry) (started : Option (List GcdMapEntry)),
      (∀ range, started = some range →
        ∃ e tail, range = e :: tail ∧ e.baseAddress ≤ base ∧ base ≤ e.endAddress) →
      searchLoop base last before started rest = some links →
      links.Covers base last (before ++ (started.getD [] ++ rest)) := by
  induction rest with
  | nil =>
    intro before started _ h
    simp [searchLoop] at h
  | cons entry rest ih =>
    intro before started hst h
    simp only [searchLoop] at h
    by_cases hit : entry.baseAddress ≤ base ∧ base ≤ entry.endAddress
    · split_ifs at h with hlast
      · obtain rfl := some.inj h
        exact ⟨by simp, ⟨entry, [], rfl, hit⟩, ⟨[], entry, rfl, hlast⟩⟩
      · have hc := ih (before ++ started.getD []) (some [entry])
          (by rintro _ ⟨⟩; exact ⟨entry, [], rfl, hit⟩) h
        simpa using hc
    · simp only [if_neg hit] at h
      cases started with
      | none =>
        have hc := ih (before ++ [entry]) none (by rintro _ ⟨⟩) h
        simpa using hc
      | some range =>
        obtain ⟨e, tail, rfl, he⟩ := hst range rfl
        split_ifs at h with hlast
        · obtain rfl := some.inj h
          exact ⟨by simp, ⟨e, tail ++ [entry], rfl, he⟩, ⟨e :: tail, entry, rfl, hlast⟩⟩
        · have hc := ih before (some ((e :: tail) ++ [entry]))
            (by rintro _ ⟨⟩; exact ⟨e, tail ++ [entry], rfl, he⟩) h
          simpa using hc

theorem coreSearchGcdMapEntry_covers {base length : ℕ} {map : List GcdMapEntry}
    {links : LinkRange} (h : coreSearchGcdMapEntry base length map = some links) :
    links.Covers base (lastAddress base length) map := by
  simpa using searchLoop_covers [] none (by rintro _ ⟨⟩) h

/-! ## The conversion loop -/

theorem lastAddress_of_le {base length : ℕ} (hl : 0 < length)
    (hw : base + length ≤ 2 ^ 64) : lastAddress base length = base + length - 1 := by
  unfold lastAddress add64 sub64
  omega

/-- Without wrap-around the cut leaves three neighbouring pieces of the entry. -/
theorem coreInsertGcdMapEntry_eq {e : GcdMapEntry} {base length last : ℕ} (hl : 0 < length)
    (hw : base + length ≤ 2 ^ 64) (hlast : last = base + length - 1)
    (hen : e.endAddress < 2 ^ 64) :
    coreInsertGcdMapEntry e base length =
      ⟨if e.baseAddress < base then some { e with endAddress := base - 1 } else none,
        { e with baseAddress := max e.baseAddress base, endAddress := min e.endAddress last },
        if last < e.endAddress then some { e with baseAddress := last + 1 } else none⟩ := by
  unfold coreInsertGcdMapEntry
  rw [lastAddress_of_le hl hw, ← hlast]
  have hbo : e.baseAddress < base → sub64 base 1 = base - 1 := fun h => by
    unfold sub64
    omega
  have ht : last < e.endAddress → add64 base length = last + 1 := fun h => by
    unfold add64
    omega
  have hb : max e.baseAddress base = if e.baseAddress < base then base else e.baseAddress := by
    split_ifs <;> omega
  have he : min e.endAddress last = if last < e.endAddress then last else e.endAddress := by
    split_ifs <;> omega
  rw [hb, he]
  by_cases h₁ : e.baseAddress < base <;> by_cases h₂ : last < e.endAddress <;>
    simp [h₁, h₂, hbo, ht]

section Convert

variable {σ : Type} {update : σ → GcdDescriptor → σ × GcdDescriptor}
  {R : σ → List GcdDescriptor → Prop} {base length last : ℕ}

/-- What the conversion loop makes of a range of entries that tile `[s, t)`: a bottom pad below
`base`, entries that tile the rest up to `last`, a top pad above. An address of the range gets
the update of its old descriptor; `R` is what the loop keeps true of its shared variable and the
descriptors still to come. -/
structure Clips (update : σ → GcdDescriptor → σ × GcdDescriptor)
    (R : σ → List GcdDescriptor → Prop) (base last s t : ℕ) (range : List GcdMapEntry)
    (c : Converted) : Prop where
  bottom_tiles : EntryTiles s c.bottom.toList (max s base)
  entries_tiles : EntryTiles (max s base) c.entries (last + 1)
  top_tiles : EntryTiles (last + 1) c.top.toList t
  below : ∀ a, a < base → descAt c.bottom.toList a = descAt range a
  above : ∀ a, last < a → descAt c.top.toList a = descAt range a
  inside : ∀ a, base ≤ a → a ≤ last → ∀ d ∈ descAt range a,
    ∃ shared ds, R shared (d :: ds) ∧ descAt c.entries a = [(update shared d).2]

variable {e : GcdMapEntry}

theorem mem_descAt_single :
    d ∈ e.span.labels a ↔ (e.baseAddress ≤ a ∧ a ≤ e.endAddress) ∧ d = e.toGcdDescriptor := by
  rw [Span.mem_labels]
  simp only [Span.Contains, GcdMapEntry.span, Nat.lt_succ_iff]

theorem descAt_single_of_mem (h : e.baseAddress ≤ a ∧ a ≤ e.endAddress) :
    e.span.labels a = [e.toGcdDescriptor] :=
  Span.labels_of_contains ⟨h.1, Nat.lt_succ_of_le h.2⟩

theorem descAt_single_of_not_mem
    (h : a < e.baseAddress ∨ e.endAddress < a) : e.span.labels a = [] :=
  Span.labels_of_not_contains fun hc => by
    obtain ⟨h₁, h₂⟩ := hc
    simp only [GcdMapEntry.span] at h₁ h₂
    omega

variable {pad : Option GcdMapEntry}

theorem bottomPad_spec (h : base ≤ e.endAddress)
    (hp : pad = if e.baseAddress < base then some { e with endAddress := base - 1 } else none) :
    EntryTiles e.baseAddress pad.toList (max e.baseAddress base) ∧
      ∀ a, a < base → descAt pad.toList a = e.span.labels a := by
  subst hp
  split_ifs with hlt
  · refine ⟨⟨rfl, ?_, ?_⟩, fun a ha => ?_⟩
    · dsimp only
      omega
    · simp only [tiles_nil]
      omega
    · simp only [toList_some, descAt_cons, descAt_nil, append_nil, Span.labels,
        GcdMapEntry.span]
      exact if_congr (by omega) rfl rfl
  · refine ⟨?_, fun a ha => ?_⟩
    · simp only [toList_none, tiles_nil]
      omega
    · rw [descAt_single_of_not_mem (Or.inl (by omega))]
      rfl

theorem topPad_spec (h₁ : e.baseAddress ≤ last) (h₂ : last ≤ e.endAddress)
    (hp : pad = if last < e.endAddress then some { e with baseAddress := last + 1 } else none) :
    EntryTiles (last + 1) pad.toList (e.endAddress + 1) ∧
      ∀ a, last < a → descAt pad.toList a = e.span.labels a := by
  subst hp
  split_ifs with hlt
  · refine ⟨⟨rfl, ?_, rfl⟩, fun a ha => ?_⟩
    · dsimp only
      omega
    · simp only [toList_some, descAt_cons, descAt_nil, append_nil, Span.labels,
        GcdMapEntry.span]
      exact if_congr (by omega) rfl rfl
  · refine ⟨?_, fun a ha => ?_⟩
    · simp only [toList_none, tiles_nil]
      omega
    · rw [descAt_single_of_not_mem (Or.inr (by omega))]
      rfl

theorem eq_nil_of_entryTiles_self (h : EntryTiles s l s) :
    l = [] := by
  cases l with
  | nil => rfl
  | cons e l =>
    obtain ⟨h₁, h₂, h₃⟩ := entryTiles_cons.mp h
    have := h₃.le
    omega

/-- One turn of the loop, for an entry cut into `cut`. -/
theorem convertEntries_cons_eq {cut : Cut} {used : Bool}
    {shared : σ} {r : Converted} (hin : coreInsertGcdMapEntry e base length = cut)
    (hb : (used && cut.bottom.isSome) = false)
    (ht : (cut.top.isSome && !rest.isEmpty) = false)
    (hr : convertEntries update base length (used || cut.bottom.isSome)
      (update shared cut.entry.toGcdDescriptor).1 rest = some r) :
    convertEntries update base length used shared (e :: rest) =
      some ⟨cut.bottom,
        { cut.entry with toGcdDescriptor := (update shared cut.entry.toGcdDescriptor).2 } ::
          (r.bottom.toList ++ r.entries),
        cut.top.or r.top⟩ := by
  simp only [convertEntries, hin, hb, ht, Bool.or_self, Bool.false_eq_true, if_false, hr,
    map_some]

theorem convertEntries_clips (hl : 0 < length) (hw : base + length ≤ 2 ^ 64)
    (hlast : last = base + length - 1)
    (hR : ∀ shared d ds, R shared (d :: ds) → R (update shared d).1 ds)
    {range : List GcdMapEntry} : ∀ (used : Bool) (shared : σ) (s t : ℕ),
      EntryTiles s range t → t ≤ 2 ^ 64 →
      (∃ e rest, range = e :: rest ∧ base ≤ e.endAddress) →
      (∃ init e, range = init ++ [e] ∧ e.baseAddress ≤ last ∧ last ≤ e.endAddress) →
      (used = true → base ≤ s) → R shared (range.map (·.toGcdDescriptor)) →
      ∃ c, convertEntries update base length used shared range = some c ∧
        Clips update R base last s t range c := by
  induction range with
  | nil =>
    rintro used shared s t - - ⟨e, rest, h, -⟩
    cases h
  | cons e rest ih =>
    intro used shared s t hti ht hf hfi hu hs
    obtain ⟨rfl, hle, hti⟩ := entryTiles_cons.mp hti
    obtain ⟨_, _, heq, hb⟩ := hf
    obtain ⟨rfl, rfl⟩ := List.cons.inj heq
    have he : e.endAddress < 2 ^ 64 := by
      have := hti.le
      omega
    have hin := coreInsertGcdMapEntry_eq hl hw hlast he
    obtain ⟨hbo, hbe⟩ := bottomPad_spec hb rfl
    have hnr : (used && (if e.baseAddress < base then
        some { e with endAddress := base - 1 } else none : Option GcdMapEntry).isSome) = false := by
      cases used with
      | false => rfl
      | true => simp [not_lt.mpr (hu rfl)]
    cases rest with
    | nil =>
      -- the last entry: it holds `last`, and a top pad may remain
      obtain ⟨init, f, heq', hf₁, hf₂⟩ := hfi
      obtain ⟨rfl, rfl⟩ : init = [] ∧ e = f := by
        cases init with
        | nil => exact ⟨rfl, by simpa using heq'⟩
        | cons x xs => simp at heq'
      obtain rfl : e.endAddress + 1 = t := hti
      obtain ⟨hto, hab⟩ := topPad_spec hf₁ hf₂ rfl
      refine ⟨_, convertEntries_cons_eq hin hnr (by simp) rfl, hbo, ?_, ?_, ?_, ?_, ?_⟩
      · refine entryTiles_cons.mpr ⟨rfl, ?_, ?_⟩
        · dsimp only
          omega
        · change min e.endAddress last + 1 = last + 1
          omega
      · simpa only [or_none] using hto
      · simpa using hbe
      · simpa using hab
      · intro a ha₁ ha₂ d hd
        obtain ⟨⟨h₁, h₂⟩, rfl⟩ := mem_descAt_single.mp (by simpa using hd)
        refine ⟨shared, [], hs, ?_⟩
        rw [descAt_cons, descAt_single_of_mem (by dsimp only; omega)]
        rfl
    | cons e' rest' =>
      -- `last` lies behind this entry: there is no top pad, and no bottom pad is cut later
      obtain ⟨init, f, heq', hf₁, hf₂⟩ := hfi
      obtain ⟨init', rfl, hr⟩ : ∃ init', init = e :: init' ∧ e' :: rest' = init' ++ [f] := by
        cases init with
        | nil => simp at heq'
        | cons x xs => exact ⟨xs, by simp_all⟩
      have hf₀ := (hti.bounds f (by simp [hr])).1
      obtain ⟨he', hle', -⟩ := entryTiles_cons.mp hti
      have hlt : e.endAddress < last := by omega
      obtain ⟨c, hc, hcl⟩ := ih
        (used || (if e.baseAddress < base then some { e with endAddress := base - 1 } else none :
          Option GcdMapEntry).isSome) _ _ _
        hti ht ⟨e', rest', rfl, by omega⟩ ⟨init', f, hr, hf₁, hf₂⟩
        (fun _ => by omega) (hR _ _ _ hs)
      have hmax : max (e.endAddress + 1) base = e.endAddress + 1 := by omega
      have hnb : c.bottom.toList = [] :=
        eq_nil_of_entryTiles_self (hmax ▸ hcl.bottom_tiles)
      have hen := hmax ▸ hcl.entries_tiles
      have hn : (if last < e.endAddress then some { e with baseAddress := last + 1 } else none :
          Option GcdMapEntry) = none := if_neg (by omega)
      refine ⟨_, convertEntries_cons_eq hin hnr (by simp [hn]) hc, hbo, ?_, ?_, ?_, ?_, ?_⟩
      · refine entryTiles_cons.mpr ⟨rfl, ?_, ?_⟩
        · dsimp only
          omega
        · rw [hnb, nil_append]
          convert hen using 2
          exact min_eq_left hlt.le
      · simpa only [hn, none_or] using hcl.top_tiles
      · intro a ha
        rw [hbe a ha, descAt_cons, descAt_eq_nil_of_lt hti (Or.inl (by omega)),
          append_nil]
      · intro a ha
        simp only [hn, none_or]
        rw [hcl.above a ha, descAt_cons e, descAt_single_of_not_mem (Or.inr (by omega)),
          nil_append]
      · intro a ha₁ ha₂ d hd
        simp only [hnb, nil_append]
        rw [descAt_cons] at hd
        rcases mem_append.mp hd with hd | hd
        · obtain ⟨⟨h₁, h₂⟩, rfl⟩ := mem_descAt_single.mp hd
          refine ⟨shared, _, hs, ?_⟩
          rw [descAt_cons, descAt_single_of_mem (by dsimp only; omega),
            descAt_eq_nil_of_lt hen (Or.inl (by omega))]
          rfl
        · have ha : e.endAddress < a := by
            by_contra hle
            rw [descAt_eq_nil_of_lt hti (Or.inl (by omega))] at hd
            cases hd
          obtain ⟨shared', ds, hR', hds⟩ := hcl.inside a ha₁ ha₂ d hd
          refine ⟨shared', ds, hR', ?_⟩
          rw [descAt_cons, descAt_single_of_not_mem (Or.inr (by dsimp only; omega)), hds,
            nil_append]

end Convert

/-! ## The cleanup -/

/-- `l'` tiles what `l` tiles, and says the same. -/
def SameMap (s t : ℕ) (l l' : List GcdMapEntry) : Prop :=
  EntryTiles s l t → EntryTiles s l' t ∧ ∀ a, descAt l' a = descAt l a

/-- Two neighbours with the same descriptor may be replaced by one entry. -/
theorem sameMap_merge {r : List GcdMapEntry} {x y z : GcdMapEntry}
    (hxy : y.toGcdDescriptor = x.toGcdDescriptor) (hz : z.toGcdDescriptor = x.toGcdDescriptor)
    (hb : z.baseAddress = x.baseAddress) (he : z.endAddress = y.endAddress) :
    SameMap s t (l ++ x :: y :: r) (l ++ z :: r) := by
  intro h
  obtain ⟨mid, hl, hxyr⟩ := tiles_append.mp h
  obtain ⟨rfl, hx, hyr⟩ := entryTiles_cons.mp hxyr
  obtain ⟨hy₁, hy₂, hr⟩ := entryTiles_cons.mp hyr
  refine ⟨tiles_append.mpr ⟨_, hl, entryTiles_cons.mpr ⟨hb, by omega, he ▸ hr⟩⟩, fun a => ?_⟩
  have hla : z.span.labels a = x.span.labels a ++ y.span.labels a := by
    unfold GcdMapEntry.span
    rw [hz, hb, he, hxy, hy₁, Span.labels_split (by omega) (by omega)]
  simp only [descAt_append, descAt_cons, hla, append_assoc]

theorem mergeBackward_sameMap (left : List GcdMapEntry) (entry : GcdMapEntry)
    (right : List GcdMapEntry) :
    SameMap s t (left.reverse ++ entry :: right) ((mergeBackward left entry).reverse ++ right) := by
  fun_cases mergeBackward left entry with
  | case1 => exact fun h => ⟨h, fun _ => rfl⟩
  | case2 prev left' heq =>
    have hm := @sameMap_merge s t left'.reverse right prev entry
      { entry with baseAddress := prev.baseAddress } heq heq rfl rfl
    simpa using hm
  | case3 prev left' hne =>
    intro h
    refine ⟨?_, fun a => ?_⟩
    · simpa using h
    · simp

theorem foldl_mergeBackward_sameMap (right : List GcdMapEntry) :
    ∀ entries left : List GcdMapEntry,
      SameMap s t (left.reverse ++ (entries ++ right))
        ((entries.foldl mergeBackward left).reverse ++ right) := by
  intro entries
  induction entries with
  | nil => exact fun left h => ⟨h, fun _ => rfl⟩
  | cons entry entries ih =>
    intro left h
    obtain ⟨h₁, hd₁⟩ := mergeBackward_sameMap left entry (entries ++ right) h
    obtain ⟨h₂, hd₂⟩ := ih (mergeBackward left entry) h₁
    exact ⟨h₂, fun a => (hd₂ a).trans (hd₁ a)⟩

theorem mergeForward_sameMap (left right : List GcdMapEntry) :
    SameMap s t (left.reverse ++ right) (mergeForward left right) := by
  fun_cases mergeForward left right with
  | case1 entry left' next right' heq =>
    have hm := @sameMap_merge s t left'.reverse right' entry next
      { entry with endAddress := next.endAddress } heq.symm rfl rfl rfl
    simpa using hm
  | case2 | case3 => exact fun h => ⟨h, fun _ => rfl⟩

theorem coreCleanupGcdMapEntry_sameMap (before entries after : List GcdMapEntry) :
    SameMap s t (before ++ (entries ++ after)) (coreCleanupGcdMapEntry before entries after) := by
  intro h
  rw [← before.reverse_reverse] at h
  obtain ⟨h₁, hd₁⟩ := foldl_mergeBackward_sameMap after entries before.reverse h
  obtain ⟨h₂, hd₂⟩ := mergeForward_sameMap _ after h₁
  refine ⟨h₂, fun a => ?_⟩
  rw [coreCleanupGcdMapEntry, hd₂, hd₁, reverse_reverse]

/-! ## The edited map -/

/-- `map'` is the partition `map` with the descriptors of `[base, base + length)` changed as `sets`
allows, and no other. -/
structure Edited (max base length : ℕ) (sets : GcdDescriptor → GcdDescriptor → Prop)
    (map map' : List GcdMapEntry) : Prop where
  partition : Partition max map'
  within : base + length ≤ max + 1
  outside : ∀ a, a < base ∨ base + length ≤ a → descAt map' a = descAt map a
  inside : ∀ a, base ≤ a → a < base + length → ∀ d ∈ descAt map a,
    ∃ d', descAt map' a = [d'] ∧ sets d d'

theorem Edited.mono {max base length : ℕ} {sets sets' : GcdDescriptor → GcdDescriptor → Prop}
    {map map' : List GcdMapEntry} (hle : ∀ d d', sets d d' → sets' d d')
    (h : Edited max base length sets map map') : Edited max base length sets' map map' where
  partition := h.partition
  within := h.within
  outside := h.outside
  inside a h₁ h₂ d hd := by
    obtain ⟨d', hd', hs⟩ := h.inside a h₁ h₂ d hd
    exact ⟨d', hd', hle d d' hs⟩

/-- The conversion of a range of a partition, with the cleanup: no assertion fails, the result is a
partition, and it differs from the map in the range only. -/
theorem convertEntries_edited {σ : Type} {update : σ → GcdDescriptor → σ × GcdDescriptor}
    {R : σ → List GcdDescriptor → Prop} {base length max : ℕ} {map : List GcdMapEntry}
    {links : LinkRange} {shared : σ} (hl : 0 < length) (hw : base + length ≤ 2 ^ 64)
    (hmax : max < 2 ^ 64) (hp : Partition max map)
    (hco : links.Covers base (base + length - 1) map)
    (hR : ∀ shared d ds, R shared (d :: ds) → R (update shared d).1 ds)
    (hsh : R shared (links.range.map (·.toGcdDescriptor))) :
    ∃ c, convertEntries update base length false shared links.range = some c ∧
      Edited max base length (fun d d' => ∃ shared ds, R shared (d :: ds) ∧ d' = (update shared d).2)
        map (coreCleanupGcdMapEntry (links.before ++ c.bottom.toList) c.entries
          (c.top.toList ++ links.after)) := by
  obtain ⟨hsp, ⟨e, rest, hf, he₁, he₂⟩, hfi⟩ := hco
  rw [hsp] at hp ⊢
  obtain ⟨s, hbe, hre⟩ := tiles_append.mp hp
  obtain ⟨t, hr, haf⟩ := tiles_append.mp hre
  have ht : t ≤ 2 ^ 64 := haf.le.trans hmax
  obtain ⟨c, hc, hcli⟩ := convertEntries_clips hl hw rfl hR false shared s t hr ht
    ⟨e, rest, hf, he₂⟩ hfi (by simp) hsh
  have hs : s ≤ base := by
    rw [hf] at hr
    exact (entryTiles_cons.mp hr).1 ▸ he₁
  have hb := hcli.bottom_tiles
  have he := hcli.entries_tiles
  rw [max_eq_right hs] at hb he
  -- the five parts tile the map, before the cleanup merges them
  have hti : EntryTiles 0 (links.before ++ c.bottom.toList ++
      (c.entries ++ (c.top.toList ++ links.after))) (max + 1) :=
    tiles_append.mpr ⟨base, tiles_append.mpr ⟨s, hbe, hb⟩,
      tiles_append.mpr ⟨_, he, tiles_append.mpr ⟨t, hcli.top_tiles, haf⟩⟩⟩
  obtain ⟨hcl, hde⟩ := coreCleanupGcdMapEntry_sameMap _ _ _ hti
  have hlt := hcli.top_tiles.le
  refine ⟨c, hc, hcl, ?_, ?_, ?_⟩
  · have := haf.le
    omega
  · rintro a (ha | ha)
    · rw [hde]
      simp only [descAt_append, hcli.below a ha, descAt_eq_nil_of_lt he (Or.inl ha),
        descAt_eq_nil_of_lt hcli.top_tiles (Or.inl (by omega : a < _)), nil_append,
        append_assoc]
    · rw [hde]
      simp only [descAt_append, hcli.above a (by omega),
        descAt_eq_nil_of_lt he (Or.inr (by omega : _ ≤ a)),
        descAt_eq_nil_of_lt hb (Or.inr (by omega : _ ≤ a)), nil_append,
        append_assoc]
  · intro a ha₁ ha₂ d hd
    have hmem : d ∈ descAt links.range a := by
      simpa only [descAt_append, descAt_eq_nil_of_lt hbe (Or.inr (by omega : s ≤ a)),
        descAt_eq_nil_of_lt haf (Or.inl (by omega : a < t)), nil_append,
        append_nil] using hd
    obtain ⟨shared', ds, hR', hds⟩ := hcli.inside a ha₁ (by omega) d hmem
    refine ⟨_, ?_, shared', ds, hR', rfl⟩
    rw [hde]
    simp only [descAt_append, hds, descAt_eq_nil_of_lt hbe (Or.inr (by omega : s ≤ a)),
      descAt_eq_nil_of_lt hb (Or.inr ha₁),
      descAt_eq_nil_of_lt hcli.top_tiles (Or.inl (by omega : a < _)),
      descAt_eq_nil_of_lt haf (Or.inl (by omega : a < t)), nil_append, append_nil]

end Edk2.Gcd

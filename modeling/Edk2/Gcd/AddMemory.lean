import Edk2.Gcd.Runs

/-!
# Adding system memory

`CoreAddMemorySpace` adds a range to the GCD map, allocates the pages of the range to the DXE core
and hands them to the page allocator, all together or, if that fails, page by page. The pages are
computed by rounding the base address up and subtracting: a range without a whole page gives
`PageLength` zero, or wraps around to `2 ^ 64 - 4096`. And the map has changed before the pages are
allocated, so an error from there comes back with a map that is not what it was.

## Main results

* `addMemory_answer`: when the add is refused
* `handPages_spec`: what the page by page loop keeps
* `coreAddMemorySpace_right_iff`: the calls that do what they should
-/

namespace Edk2.Gcd

open List Option

def pageAlignAddress (value : ℕ) : ℕ := alignDown (add64 value (2 ^ 12 - 1)) 12

def pageAlignLength (value : ℕ) : ℕ := alignDown value 12

/-- What a call leaves behind: the status, the maps, the base address and the number of pages of
each call of `CoreAddMemoryDescriptor`, and the number of turns of the loop. -/
structure AddOutcome where
  status : EfiStatus
  state : GcdState
  handed : List (ℕ × ℕ)
  rounds : ℕ

section Model

variable (env : ℕ → GcdEnv) (gDxeCoreImageHandle : ℕ) (gcdMemoryType : GcdMemoryType)

/-- `CoreAllocateMemorySpace` at an address, for the DXE core. -/
def allocatePages (base length : ℕ) : GcdRequest :=
  .allocateSpace ⟨true, .address, gcdMemoryType, .nonExistent, 12, length, base,
    gDxeCoreImageHandle, 0⟩

/-- The loop over the pages, by the number of pages left; `env` has the environment of each call. -/
def handPages : ℕ → AddOutcome → ℕ → Option AddOutcome
  | 0, o, _ => some o
  | pages + 1, o, base => do
    let (status, base, st) ← gcdService (env (o.rounds + 2)) o.state
      (allocatePages gDxeCoreImageHandle gcdMemoryType base 4096)
    handPages pages
      ⟨status, st, if status.isError then o.handed else o.handed ++ [(base, 1)], o.rounds + 1⟩
      (add64 base 4096)

def coreAddMemorySpace (st : GcdState) (base length : ℕ) (capabilities : BitVec 64) :
    Option AddOutcome := do
  let (status, _, st) ← gcdService (env 0) st
    (.addMemorySpace gcdMemoryType base length capabilities)
  if status.isError ∨ ¬ (gcdMemoryType = .systemMemory ∨ gcdMemoryType = .moreReliable) then
    return ⟨status, st, [], 0⟩
  else
    let pageBase := pageAlignAddress base
    let pageLength := pageAlignLength (sub64 (add64 base length) pageBase)
    let (status, pageBase, st) ← gcdService (env 1) st
      (allocatePages gDxeCoreImageHandle gcdMemoryType pageBase pageLength)
    if status.isError then
      handPages env gDxeCoreImageHandle gcdMemoryType (pageLength / 4096) ⟨status, st, [], 0⟩
        pageBase
    else return ⟨status, st, [(pageBase, pageLength / 4096)], 0⟩

end Model

/-- The pages lie inside `[base, stop)`. -/
def PagesInside (base stop : ℕ) (handed : List (ℕ × ℕ)) : Prop :=
  ∀ p ∈ handed, base ≤ p.1 ∧ p.1 + p.2 * 4096 ≤ stop

/-- What a call should do. -/
structure AddRight (st : GcdState) (base length : ℕ) (o : AddOutcome) : Prop where
  inside : PagesInside base (base + length) o.handed
  rounds_le : o.rounds ≤ length / 4096
  unchanged : o.status.isError = true → o.state = st

def TypeAt (gcdMemoryType : GcdMemoryType) (a : ℕ) (st : GcdState) : Prop :=
  ∃ d ∈ descAt (st.map true) a, d.gcdMemoryType = gcdMemoryType

/-- The memory map gives the addresses of `[lo, hi)` the type, and to nobody. -/
def FreeIn (gcdMemoryType : GcdMemoryType) (lo hi : ℕ) (st : GcdState) : Prop :=
  ∀ a, lo ≤ a → a < hi → ∃ d ∈ descAt (st.map true) a,
    d.gcdMemoryType = gcdMemoryType ∧ d.imageHandle = 0

theorem searchLoop_isSome {base last lo hi : ℕ} {before rest : List GcdMapEntry}
    {started : Option (List GcdMapEntry)} (hle : base ≤ last) (hla : last < hi)
    (ht : EntryTiles lo rest hi) (hlo : lo ≤ if started.isSome then last else base) :
    (searchLoop base last before started rest).isSome := by
  fun_induction searchLoop generalizing lo with
  | case1 =>
    have : lo = hi := ht
    split_ifs at hlo <;> omega
  | case2 before started entry rest hit before' started' hs =>
    rename_i ih
    obtain ⟨rfl, -, hr⟩ := entryTiles_cons.mp ht
    refine ih hr ?_
    grind
  | case3 => rfl
  | case4 before started entry rest hit before' started' range hs hno =>
    rename_i ih
    obtain ⟨rfl, -, hr⟩ := entryTiles_cons.mp ht
    refine ih hr ?_
    grind

section Add

variable {env : GcdEnv} {base length : ℕ} {type : GcdMemoryType} {capabilities : BitVec 64}
  {maxOf : Bool → ℕ} {st : GcdState}

/-- Something of the range is in the map already: it exists, or it belongs to an image. -/
def Occupied (st : GcdState) (base length : ℕ) : Prop :=
  ∃ e ∈ st.map true, e.Meets base length ∧ (e.gcdMemoryType ≠ .nonExistent ∨ e.imageHandle ≠ 0)

theorem addMemory_check_eq {args : ConvertArgs} {d : GcdDescriptor} :
    (checkEntry .addMemory args d).isError = false ↔
      d.gcdMemoryType = .nonExistent ∧ d.imageHandle = 0 := by
  simp only [checkEntry]
  split_ifs with h
  · refine iff_of_false (by decide) fun hd => ?_
    rcases h with h | h
    · exact h hd.1
    · exact h hd.2
  · push Not at h
    exact iff_of_true rfl h

/-- An add succeeds if every entry passes the check and there is pool. -/
theorem coreConvertSpace_add_status {args : ConvertArgs} {map map' : List GcdMapEntry}
    {links : LinkRange} {status : EfiStatus} (hlen : args.length ≠ 0)
    (hlinks : coreSearchGcdMapEntry args.baseAddress args.length map = some links)
    (h : coreConvertSpace env .addMemory args map = some (status, map')) :
    status = .success ↔
      (∀ e ∈ links.range, e.gcdMemoryType = .nonExistent ∧ e.imageHandle = 0) ∧
        env.poolAvailable = true := by
  have hcheck := @checkEntries_isError (checkEntry .addMemory args) links.range
  simp only [addMemory_check_eq] at hcheck
  rw [coreConvertSpace, if_neg hlen, hlinks] at h
  dsimp only at h
  rw [← hcheck]
  split_ifs at h with hok hpool hcpu
  · cases h
    refine iff_of_false (fun hs => ?_) fun hs => ?_
    · rw [hs] at hok
      cases hok
    · rw [hs.1] at hok
      cases hok
  · cases h
    exact iff_of_false (by decide) fun hs => by simp [hs.2] at hpool
  · cases hcpu
  · obtain ⟨c, -, heq⟩ := map_eq_some_iff.mp h
    cases heq
    exact iff_of_true rfl ⟨Bool.not_eq_true _ ▸ hok, by simpa using hpool⟩

/-- **When memory cannot be added**: something of the range is there already, or there is no pool for
the entries that the range is cut into. Otherwise each address of the range gets the type. -/
theorem addMemory_answer (hst : st.Partitioned maxOf) (hmax : ∀ b, maxOf b < 2 ^ 63)
    (htype : type = .systemMemory ∨ type = .moreReliable) (hlen : 1 ≤ length)
    (hin : base + length ≤ maxOf true + 1) :
    ∃ status st', gcdService env st (.addMemorySpace type base length capabilities) =
        some (status, base, st') ∧ st'.Partitioned maxOf ∧
      ((status.isError = true ∧ st' = st ∧
          (Occupied st base length ∨ env.poolAvailable = false)) ∨
        (status = .success ∧ ¬ Occupied st base length ∧ env.poolAvailable = true ∧
          FreeIn type base (base + length) st' ∧
          ∃ d, descAt (st.map true) base = [d] ∧ d.gcdMemoryType = .nonExistent)) := by
  have hm := hmax true
  have hw : base + length ≤ 2 ^ 64 := by omega
  obtain ⟨args, hargs⟩ : ∃ args : ConvertArgs,
      args = ⟨type, .nonExistent, base, length, capabilities, 0⟩ := ⟨_, rfl⟩
  obtain ⟨status, st', hr, ha⟩ := @convert_answer_each env maxOf st .addMemory args
    (fun d => d.gcdMemoryType = .nonExistent ∧ d.imageHandle = 0) hst hmax (fun _ => rfl)
    (fun d => addMemory_check_eq.mp) (by rw [hargs]; exact hw)
  have hs : gcdService env st (.addMemorySpace type base length capabilities) =
      gcdService.convert env st .addMemory args := by
    rw [gcdService, if_neg (by rcases htype with rfl | rfl <;> decide), hargs]
  rw [hs]
  have hbase : args.baseAddress = base := by rw [hargs]
  have hlength : args.length = length := by rw [hargs]
  rw [hbase, hlength] at ha
  rw [hbase] at hr
  have hlast := lastAddress_of_le hlen hw
  obtain ⟨links, hlinks⟩ := isSome_iff_exists.mp (show
    (coreSearchGcdMapEntry base length (st.map true)).isSome from
      searchLoop_isSome (by omega) (hlast ▸ by omega) (hst true) (Nat.zero_le _))
  have hc := lastAddress_eq_of_covers hlen hw hlinks
  obtain ⟨⟨status₁, map'⟩, hcv, heq⟩ := map_eq_some_iff.mp hr
  obtain rfl : status₁ = status := congrArg Prod.fst heq
  have hstatus := coreConvertSpace_add_status (by omega) (by rw [hbase, hlength]; exact hlinks) hcv
  refine ⟨status₁, st', hr, ha.partitioned hst, ?_⟩
  rcases ha with ⟨herr, rfl⟩ | ⟨rfl, hed, -⟩
  · refine .inl ⟨herr, rfl, ?_⟩
    rw [← Bool.not_eq_true]
    by_contra hno
    push Not at hno
    obtain ⟨hfree, hpool⟩ := hno
    refine EfiStatus.isError_eq_true.mp herr (hstatus.mpr ⟨fun e he => ?_, hpool⟩)
    obtain ⟨h₁, h₂⟩ := hc.meets (hst true) he
    by_contra hocc
    exact hfree ⟨e, hc.mem he, ⟨by omega, h₁⟩, not_and_or.mp hocc⟩
  · have hold : ∀ e ∈ st.map true, e.Meets base length →
        e.gcdMemoryType = .nonExistent ∧ e.imageHandle = 0 := by
      rintro e he ⟨h₁, h₂⟩
      have hle := ((hst true).bounds e he).2.1
      obtain ⟨-, -, hP, -⟩ := hed.inside (Nat.max e.baseAddress base) (Nat.le_max_right _ _)
        (Nat.max_lt.mpr ⟨h₁, by omega⟩) _
        (mem_descAt_of_mem he ⟨Nat.le_max_left _ _, Nat.max_le.mpr ⟨by omega, h₂⟩⟩)
      exact hP
    refine .inr ⟨rfl, ?_, (hstatus.mp rfl).2, ?_, ?_⟩
    · rintro ⟨e, he, hmeet, hocc⟩
      obtain ⟨h₁, h₂⟩ := hold e he hmeet
      exact hocc.elim (· h₁) (· h₂)
    · intro x h₁ h₂
      obtain ⟨d, hd⟩ := exists_descAt_eq (hst true) (Nat.zero_le x) (by omega)
      obtain ⟨d', hd', ⟨-, hi⟩, hup⟩ := hed.inside x h₁ h₂ d (hd ▸ mem_singleton_self d)
      refine ⟨d', hd' ▸ mem_singleton_self d', ?_⟩
      rw [hup, hargs]
      exact ⟨rfl, hi⟩
    · obtain ⟨d, hd⟩ := exists_descAt_eq (hst true) (Nat.zero_le base) (by omega)
      obtain ⟨-, -, ⟨hnone, -⟩, -⟩ := hed.inside base (Nat.le_refl _) (by omega) d
        (hd ▸ mem_singleton_self d)
      exact ⟨d, hd, hnone⟩

end Add

section Pages

variable {env : ℕ → GcdEnv} {handle base stop pages a : ℕ}
  {type : GcdMemoryType} {maxOf : Bool → ℕ} {st st' : GcdState} {o o' : AddOutcome}

theorem findSpace_pages {args : AllocateArgs} (hp : Partition (maxOf true) (st.map true))
    (hmax : maxOf true < 2 ^ 63) (ha : args.gcdAllocateType = .address) (hm : args.isMemory = true)
    (hb : args.baseAddress % 2 ^ args.alignment = 0) (hl : 0 < args.length)
    (hin : args.baseAddress + args.length ≤ maxOf true + 1)
    (hf : FreeIn args.gcdMemoryType args.baseAddress (args.baseAddress + args.length) st) :
    ∃ links, findSpace args (st.map true) = some (.ok (args.baseAddress, links)) := by
  have hw : args.baseAddress + args.length ≤ 2 ^ 64 := by omega
  have hlast := lastAddress_of_le hl hw
  have hs : (coreSearchGcdMapEntry args.baseAddress args.length (st.map true)).isSome :=
    searchLoop_isSome (by omega) (hlast ▸ by omega) hp (Nat.zero_le _)
  obtain ⟨links, hlinks⟩ := isSome_iff_exists.mp hs
  have hc := lastAddress_eq_of_covers hl hw hlinks
  have hok : (checkEntries (coreAllocateSpaceCheckEntry args) links.range).isError = false := by
    refine checkEntries_isError.mpr fun e he => ?_
    obtain ⟨h₁, h₂⟩ := hc.meets hp he
    -- an address of the range that the entry holds
    obtain ⟨d, hd, ht, hi⟩ := hf (Nat.max e.baseAddress args.baseAddress) (Nat.le_max_right _ _)
      (Nat.max_lt.mpr ⟨by omega, by omega⟩)
    have hmem := mem_descAt_of_mem (hc.mem he) ⟨Nat.le_max_left _ args.baseAddress,
      Nat.max_le.mpr ⟨Nat.le_of_lt_succ (hp.bounds e (hc.mem he)).2.1, by omega⟩⟩
    rw [descAt_eq_of_mem hp hd, mem_singleton] at hmem
    rw [hmem, coreAllocateSpaceCheckEntry, if_neg (not_not.mpr hi), if_pos hm,
      if_neg (not_not.mpr ht)]
    rfl
  refine ⟨links, ?_⟩
  rw [findSpace, if_pos ha, if_neg (not_not.mpr hb), hlinks]
  exact if_neg (by simp [hok])

/-- An allocation of free pages succeeds if there is pool. No memory type changes, and nothing
behind the pages. -/
theorem allocatePages_answer (env : GcdEnv) {length : ℕ} (hst : st.Partitioned maxOf)
    (hmax : ∀ b, maxOf b < 2 ^ 63) (hh : handle ≠ 0)
    (ht : type ≠ .maximum) (hb : base % 4096 = 0) (hl : 0 < length)
    (hin : base + length ≤ maxOf true + 1) (hf : FreeIn type base (base + length) st) :
    ∃ status st', gcdService env st
        (allocatePages handle type base length) = some (status, base, st') ∧
      st'.Partitioned maxOf ∧ (status = .success ↔ env.poolAvailable = true) ∧
      (status = .success ∨ st' = st) ∧ ∀ a, ∀ d ∈ descAt (st.map true) a,
        ∃ d' ∈ descAt (st'.map true) a, d'.gcdMemoryType = d.gcdMemoryType ∧
          (base + length ≤ a → d' = d) := by
  have hm := hmax true
  obtain ⟨status, base', st', hse, hba, han⟩ := @gcdService_answer env _ _ hst hmax
    (allocatePages handle type base length)
    ⟨fun _ => by change base + length ≤ _; omega, fun h => absurd rfl h⟩
  obtain rfl : base' = base := hba base rfl
  change ServiceAnswer maxOf true base' length _ st status st' at han
  refine ⟨status, st', hse, han.partitioned hst, ?_, han.symm.imp And.left And.right, ?_⟩
  · obtain ⟨links, hlinks⟩ := @findSpace_pages maxOf st
      ⟨true, .address, type, .nonExistent, 12, length, base', handle, 0⟩
      (hst true) hm rfl rfl hb hl hin hf
    rw [allocatePages, gcdService, coreAllocateSpace, if_neg (by simp [ht, hh]),
      if_neg (by simp), if_neg hl.ne', hlinks] at hse
    cases hp : env.poolAvailable with
    | false =>
      simp only [hp, Bool.not_false, if_true, map_some, some.injEq, Prod.mk.injEq] at hse
      simp [← hse.1]
    | true =>
      simp only [hp, Bool.not_true, Bool.false_eq_true, if_false] at hse
      obtain ⟨r, hr, hs⟩ := map_eq_some_iff.mp hse
      obtain ⟨c, -, rfl⟩ := map_eq_some_iff.mp hr
      exact iff_of_true (Prod.mk.inj hs).1.symm rfl
  · intro a d hd
    rcases han with ⟨-, rfl⟩ | ⟨-, he, -⟩
    · exact ⟨d, hd, rfl, fun _ => rfl⟩
    by_cases ha : base' ≤ a ∧ a < base' + length
    · obtain ⟨d', hd', hs⟩ := he.inside a ha.1 ha.2 d hd
      exact ⟨d', hd' ▸ mem_singleton_self d', by rw [show d' = _ from hs], fun _ => by omega⟩
    · exact ⟨d, (he.outside a (by omega)).symm ▸ hd, rfl, fun _ => rfl⟩

theorem allocatePages_zero (env : GcdEnv) :
    gcdService env st (allocatePages handle type base 0) =
      some (.invalidParameter, base, st) := by
  simp only [gcdService, allocatePages, coreAllocateSpace]
  split_ifs <;> simp_all

/-- **The loop over the pages** hands pages of the range only, one at a turn. Its status is that of
the last page. -/
theorem handPages_spec (hmax : ∀ b, maxOf b < 2 ^ 63) (hh : handle ≠ 0)
    (ht : type ≠ .maximum) (hstop : stop ≤ maxOf true + 1) :
    ∀ pages o base, base % 4096 = 0 → a ≤ base → base + pages * 4096 ≤ stop →
      o.state.Partitioned maxOf → FreeIn type base (base + pages * 4096) o.state →
      TypeAt type a o.state → PagesInside a stop o.handed →
      ∃ o', handPages env handle type pages o base = some o' ∧
        TypeAt type a o'.state ∧ PagesInside a stop o'.handed ∧
        (0 < pages →
          (o'.status = .success ↔ (env (o.rounds + pages + 1)).poolAvailable = true)) := by
  intro pages
  have hm := hmax true
  induction pages with
  | zero =>
    intro o base _ _ _ _ _ hty hin
    exact ⟨o, rfl, hty, hin, fun h => absurd h (Nat.lt_irrefl 0)⟩
  | succ pages ih =>
    intro o base hb hle hpa hst hf hty hin
    have hpag : base + 4096 ≤ stop := by omega
    obtain ⟨status, st', hs, hst', hsu, -, hk⟩ := @allocatePages_answer handle base
      type maxOf o.state (env (o.rounds + 2)) 4096 hst hmax hh ht hb (by omega)
      (by omega) fun x h₁ h₂ => hf x h₁ (by omega)
    rw [handPages, hs]
    change ∃ o', handPages _ _ _ pages _ (add64 base 4096) = some o' ∧ _
    rw [add64_of_lt (by omega)]
    have hty' : TypeAt type a st' := by
      obtain ⟨d, hd, ht⟩ := hty
      obtain ⟨d', hd', he, -⟩ := hk a d hd
      exact ⟨d', hd', he.trans ht⟩
    have hf' : FreeIn type (base + 4096) (base + 4096 + pages * 4096) st' := by
      intro x h₁ h₂
      obtain ⟨d, hd, ht⟩ := hf x (by omega) (by omega)
      obtain ⟨d', hd', -, he⟩ := hk x d hd
      exact ⟨d', hd', he h₁ ▸ ht⟩
    obtain ⟨o', ho', ht', hin', hlast⟩ := ih ⟨status, st', if status.isError then o.handed
      else o.handed ++ [(base, 1)], o.rounds + 1⟩ (base + 4096) (by omega) (by omega) (by omega)
      hst' hf' hty' (by
        dsimp only
        split_ifs
        · exact hin
        · intro p hp
          rcases mem_append.mp hp with hp | hp
          · exact hin p hp
          · rw [mem_singleton.mp hp]
            exact ⟨hle, by rwa [Nat.one_mul]⟩)
    refine ⟨o', ho', ht', hin', fun _ => ?_⟩
    cases pages with
    | zero => rwa [← some.inj ho']
    | succ n =>
      rw [hlast (Nat.succ_pos n), Nat.add_assoc o.rounds, Nat.add_comm 1]

/-- The loop over pages ends for every number of pages, also where the addresses wrap around. -/
theorem handPages_isSome (hmax : ∀ b, maxOf b < 2 ^ 63) :
    ∀ pages o base, base % 4096 = 0 → base < 2 ^ 64 → o.state.Partitioned maxOf →
      (handPages env handle type pages o base).isSome := by
  intro pages
  induction pages with
  | zero => exact fun _ _ _ _ _ => rfl
  | succ pages ih =>
    intro o base hb hlt hst
    obtain ⟨status, base', st', hs, hba, ha⟩ := @gcdService_answer (env (o.rounds + 2)) _ _ hst hmax
      (allocatePages handle type base 4096)
      ⟨fun _ => by change base + 4096 ≤ _; omega, fun h => absurd rfl h⟩
    obtain rfl : base' = base := hba base rfl
    rw [handPages, hs]
    refine ih _ _ ?_ (add64_lt _ _) (ha.partitioned hst)
    unfold add64
    omega

/-- A range that wraps around lies in one entry, or in none. -/
theorem range_eq_singleton {links : LinkRange} {last max : ℕ} {map : List GcdMapEntry}
    (hp : Partition max map) (hlt : last < base) (hc : links.Covers base last map) :
    ∃ e, links.range = [e] := by
  obtain ⟨s, t, ht⟩ := hc.tiles hp
  obtain ⟨-, ⟨e, rest, hfirst, -, he⟩, ⟨init, f, hfinal, hf, -⟩⟩ := hc
  rw [hfirst] at ht hfinal
  obtain ⟨-, -, hrest⟩ := entryTiles_cons.mp ht
  cases rest with
  | nil => exact ⟨e, hfirst⟩
  | cons e' rest =>
    -- the last entry lies behind the first one, and holds an address below it
    have hmem : f ∈ e' :: rest := by
      cases init with
      | nil => simp at hfinal
      | cons x init =>
        rw [cons_append, cons.injEq] at hfinal
        rw [hfinal.2]
        exact mem_append_right _ (mem_singleton_self f)
    have := (hrest.bounds f hmem).1
    omega

/-- An allocation whose range wraps around is answered too. -/
theorem allocatePages_wrapped (env : GcdEnv) {length : ℕ} (hst : st.Partitioned maxOf)
    (hlt : lastAddress base length < base) :
    ∃ status st', gcdService env st (allocatePages handle type base length) =
      some (status, base, st') ∧ (status.isError = true → st' = st) := by
  obtain ⟨args, hargs⟩ : ∃ args : AllocateArgs, args = ⟨true, .address, type, .nonExistent, 12,
    length, base, handle, 0⟩ := ⟨_, rfl⟩
  have hs : gcdService env st (allocatePages handle type base length) =
      (coreAllocateSpace env args (st.map true)).map fun r =>
        (r.1, r.2.1, st.setMap true r.2.2) := by
    rw [hargs]
    rfl
  suffices h : ∃ status map', coreAllocateSpace env args (st.map true) = some (status, base, map') ∧
      (status.isError = true → map' = st.map true) by
    obtain ⟨status, map', hr, hsame⟩ := h
    refine ⟨status, st.setMap true map', by rw [hs, hr, map_some], fun he => ?_⟩
    rw [hsame he, GcdState.setMap_map]
  have hb : args.baseAddress = base := by rw [hargs]
  have hkeep : ∀ status : EfiStatus, ∃ status' map', some (status, base, st.map true) =
      some (status', base, map') ∧ (status'.isError = true → map' = st.map true) :=
    fun status => ⟨status, _, rfl, fun _ => rfl⟩
  rw [coreAllocateSpace, hb]
  split
  · exact hkeep _
  split
  · exact hkeep _
  split
  · exact hkeep _
  rw [findSpace, if_pos (by rw [hargs]), hb]
  by_cases hal : base % 2 ^ args.alignment ≠ 0
  · rw [if_pos hal]
    exact hkeep _
  rw [if_neg hal]
  have hl : args.length = length := by rw [hargs]
  rw [hl]
  cases hlinks : coreSearchGcdMapEntry base length (st.map true) with
  | none => exact hkeep _
  | some links =>
    dsimp only
    by_cases hok : (checkEntries (coreAllocateSpaceCheckEntry args) links.range).isError = true
    · rw [if_pos hok]
      exact hkeep _
    rw [if_neg hok]
    dsimp only
    split
    · exact hkeep _
    · obtain ⟨e, he⟩ := range_eq_singleton (hst true) hlt (coreSearchGcdMapEntry_covers hlinks)
      have hc : (convertEntries (allocateEntry args) base length false () links.range).isSome := by
        rw [he, convertEntries]
        simp [convertEntries]
      obtain ⟨c, hc⟩ := isSome_iff_exists.mp hc
      rw [hc, map_some]
      exact ⟨_, _, rfl, fun h => by cases h⟩

theorem rounds_handPages : ∀ pages o base, handPages env handle type pages o
    base = some o' → o'.rounds = o.rounds + pages := by
  intro pages
  induction pages with
  | zero =>
    intro o base h
    exact some.inj h ▸ rfl
  | succ pages ih =>
    intro o base h
    obtain ⟨r, -, hr⟩ := bind_eq_some_iff.mp h
    rw [ih _ _ hr, Nat.add_assoc, Nat.add_comm 1]

end Pages

/-! ## The pages of a range -/

/-- The number of whole pages in the range. -/
def wholePages (base length : ℕ) : ℕ := (base + length) / 4096 - (base + 4095) / 4096

/-- `PageBaseAddress` is the first page boundary of the range, and `PageLength` the length of its
whole pages, unless the boundary lies behind the range. -/
theorem pages_of_range {base length : ℕ} (hin : base + length ≤ 2 ^ 63) :
    ∃ pageBase pageLength, pageAlignAddress base = pageBase ∧
      pageAlignLength (sub64 (add64 base length) pageBase) = pageLength ∧ base ≤ pageBase ∧
      pageBase % 4096 = 0 ∧
      if pageBase ≤ base + length then
        pageLength = wholePages base length * 4096 ∧ pageBase + pageLength ≤ base + length
      else pageLength = 2 ^ 64 - 4096 ∧ length < 4096 ∧ wholePages base length = 0 := by
  have hup : pageAlignAddress base = (base + 4095) / 4096 * 4096 := by
    rw [pageAlignAddress, add64_of_lt (by omega)]
    rfl
  refine ⟨_, _, hup, rfl, by omega, Nat.mul_mod_left _ _, ?_⟩
  rw [add64_of_lt (by omega)]
  unfold pageAlignLength alignDown sub64 wholePages
  split_ifs <;> omega

section Right

variable {env : ℕ → GcdEnv} {handle base length : ℕ} {type : GcdMemoryType}
  {capabilities : BitVec 64} {maxOf : Bool → ℕ} {st st₁ : GcdState}

/-- What is left of a call once the range is added. -/
theorem coreAddMemorySpace_of_added (htype : type = .systemMemory ∨ type = .moreReliable)
    (hadd : gcdService (env 0) st (.addMemorySpace type base length capabilities) =
      some (.success, base, st₁)) :
    coreAddMemorySpace env handle type st base length capabilities =
      (gcdService (env 1) st₁ (allocatePages handle type (pageAlignAddress base)
        (pageAlignLength (sub64 (add64 base length) (pageAlignAddress base))))).bind fun r =>
          if r.1.isError then
            handPages env handle type
              (pageAlignLength (sub64 (add64 base length) (pageAlignAddress base)) / 4096)
              ⟨r.1, r.2.2, [], 0⟩ r.2.1
          else some ⟨r.1, r.2.2, [(r.2.1,
            pageAlignLength (sub64 (add64 base length) (pageAlignAddress base)) / 4096)], 0⟩ := by
  rw [coreAddMemorySpace, hadd]
  change (if _ then _ else _) = _
  rw [if_neg (by simp [htype])]
  rfl

/-- A range without a whole page gives an error, or hands out what is not in it. -/
theorem added_without_page (hmax : ∀ b, maxOf b < 2 ^ 63) (hst₁ : st₁.Partitioned maxOf)
    (htype : type = .systemMemory ∨ type = .moreReliable)
    (hin : base + length ≤ maxOf true + 1) (hz : wholePages base length = 0)
    (hadd : gcdService (env 0) st (.addMemorySpace type base length capabilities) =
      some (.success, base, st₁)) (hne : st₁ ≠ st) :
    ∃ o, coreAddMemorySpace env handle type st base length capabilities = some o ∧
      ¬ AddRight st base length o := by
  have hm := hmax true
  rw [coreAddMemorySpace_of_added htype hadd]
  obtain ⟨pageBase, pageLength, hb, hl, hle, hal, hrange⟩ := @pages_of_range base length (by omega)
  rw [hb, hl]
  split_ifs at hrange with ho
  · -- nothing is allocated, and the error comes back
    rw [hrange.1, hz, Nat.zero_mul, allocatePages_zero, bind_some]
    exact ⟨_, rfl, fun hr => hne (hr.unchanged rfl)⟩
  · -- `PageLength` has wrapped around
    obtain ⟨rfl, hshort, -⟩ := hrange
    have hlt : pageBase < 2 ^ 64 := by
      rw [← hb, pageAlignAddress]
      exact Nat.lt_of_le_of_lt (alignDown_le _ _) (add64_lt _ _)
    obtain ⟨status, st₂, hs, hsame⟩ : ∃ status st₂, gcdService (env 1) st₁
        (allocatePages handle type pageBase (2 ^ 64 - 4096)) = some (status, pageBase, st₂) ∧
        (status.isError = true → st₂ = st₁) := by
      rcases Nat.lt_or_ge 4096 pageBase with hp | hp
      · refine allocatePages_wrapped (env 1) hst₁ ?_
        unfold lastAddress add64 sub64
        omega
      · obtain ⟨status, base', st₂, hs, hba, ha⟩ := @gcdService_answer (env 1) _ _ hst₁ hmax
          (allocatePages handle type pageBase (2 ^ 64 - 4096))
          ⟨fun _ => by change pageBase + (2 ^ 64 - 4096) ≤ _; omega, fun h => absurd rfl h⟩
        obtain rfl : base' = pageBase := hba pageBase rfl
        refine ⟨status, st₂, hs, fun he => ?_⟩
        rcases ha with ⟨-, hsame⟩ | ⟨rfl, -⟩
        · exact hsame
        · cases he
    rw [hs, bind_some]
    dsimp only
    split
    · rename_i he
      rw [hsame he]
      obtain ⟨o, ho⟩ := isSome_iff_exists.mp (@handPages_isSome env handle type maxOf hmax
        ((2 ^ 64 - 4096) / 4096) ⟨status, st₁, [], 0⟩ pageBase hal hlt hst₁)
      refine ⟨o, ho, fun hright => ?_⟩
      have hrounds := rounds_handPages _ _ _ ho
      have := hright.rounds_le
      omega
    · refine ⟨_, rfl, fun hright => ?_⟩
      have := (hright.inside _ (mem_singleton_self _)).2
      omega

/-- With whole pages, the error of a call is that of the allocation of the last page. -/
theorem added_with_pages (hmax : ∀ b, maxOf b < 2 ^ 63) (hst₁ : st₁.Partitioned maxOf)
    (hcore : handle ≠ 0) (htype : type = .systemMemory ∨ type = .moreReliable)
    (hin : base + length ≤ maxOf true + 1) (hpos : 0 < wholePages base length)
    (hadd : gcdService (env 0) st (.addMemorySpace type base length capabilities) =
      some (.success, base, st₁)) (hfree : FreeIn type base (base + length) st₁)
    (had : TypeAt type base st₁) (hne : ∀ {st'}, TypeAt type base st' → st' ≠ st) :
    ∃ o, coreAddMemorySpace env handle type st base length capabilities = some o ∧
      (AddRight st base length o ↔ (env 1).poolAvailable = true ∨
        (env (wholePages base length + 1)).poolAvailable = true) := by
  have hm := hmax true
  have hty : type ≠ .maximum := by rcases htype with rfl | rfl <;> decide
  rw [coreAddMemorySpace_of_added htype hadd]
  obtain ⟨pageBase, pageLength, hb, hl, hle, hal, hrange⟩ := @pages_of_range base length (by omega)
  rw [hb, hl]
  split_ifs at hrange with ho
  swap
  · omega
  obtain ⟨rfl, hfit⟩ := hrange
  rw [Nat.mul_div_cancel _ (by decide)]
  obtain ⟨status, st₂, hserv, hst₂, hsu, hno, -⟩ := @allocatePages_answer handle
    pageBase type maxOf st₁ (env 1) (wholePages base length * 4096) hst₁ hmax hcore
    hty hal (by omega) (by omega) fun x h₁ h₂ => hfree x (by omega) (by omega)
  rw [hserv, bind_some]
  dsimp only
  rw [← hsu]
  by_cases hok : status = .success
  · rw [if_neg (by simp [hok])]
    refine ⟨_, rfl, iff_of_true ⟨?_, Nat.zero_le _, fun he => absurd he (by simp [hok])⟩
      (Or.inl hok)⟩
    intro p hp
    rw [mem_singleton.mp hp]
    exact ⟨hle, hfit⟩
  rw [if_pos (EfiStatus.isError_eq_true.mpr hok)]
  obtain rfl := hno.resolve_left hok
  obtain ⟨o, ho', ht', hin', hlast⟩ := @handPages_spec env handle (base + length)
    base type maxOf hmax hcore hty (by omega) (wholePages base length)
    ⟨status, st₂, [], 0⟩ pageBase hal hle hfit hst₂
    (fun x h₁ h₂ => hfree x (by omega) (by omega)) had (by simp [PagesInside])
  refine ⟨o, ho', ?_⟩
  rw [or_iff_right hok, ← Nat.zero_add (wholePages base length), ← hlast hpos]
  refine ⟨fun hr => ?_, fun hs =>
    ⟨hin', ?_, fun he => absurd hs (EfiStatus.isError_eq_true.mp he)⟩⟩
  · by_contra hfail
    exact hne ht' (hr.unchanged (EfiStatus.isError_eq_true.mpr hfail))
  · rw [rounds_handPages _ _ _ ho', Nat.zero_add, Nat.le_div_iff_mul_le (by decide)]
    omega

end Right

/-- **The calls that do what they should.** A call for system memory comes to an end; it hands out
pages of its range only, makes at most `Length / 4096` turns and leaves the map alone if it fails,
exactly if something of the range is in the map already, or there is no pool to add it, or the range
contains a whole page and there is pool to allocate the pages together or the last of them alone. -/
theorem coreAddMemorySpace_right_iff {env : ℕ → GcdEnv} {handle base length n : ℕ}
    {type : GcdMemoryType} {capabilities : BitVec 64} {maxOf : Bool → ℕ} {st : GcdState}
    (hn : n ≤ 63) (hmem : maxOf true = 2 ^ n - 1) (hio : maxOf false < 2 ^ 63)
    (hst : st.Partitioned maxOf) (hcore : handle ≠ 0)
    (htype : type = .systemMemory ∨ type = .moreReliable) (hlen : 1 ≤ length)
    (hin : base + length ≤ 2 ^ n) :
    ∃ o, coreAddMemorySpace env handle type st base length capabilities = some o ∧
      (AddRight st base length o ↔
        Occupied st base length ∨ (env 0).poolAvailable = false ∨
          0 < wholePages base length ∧ ((env 1).poolAvailable = true ∨
            (env (wholePages base length + 1)).poolAvailable = true)) := by
  have hpo : 2 ^ n ≤ 2 ^ 63 := Nat.pow_le_pow_right Nat.two_pos hn
  have hmax : ∀ b, maxOf b < 2 ^ 63 := fun b => by
    cases b with
    | false => exact hio
    | true => omega
  obtain ⟨status, st₁, hadd, hst₁, ⟨herr, rfl, hwhy⟩ | ⟨rfl, hocc, hpool, hfree, d, hd, hold⟩⟩ :=
    @addMemory_answer (env 0) base length type capabilities maxOf st hst hmax htype hlen (by omega)
  · refine ⟨⟨status, st₁, [], 0⟩, ?_, iff_of_true ⟨by simp [PagesInside], Nat.zero_le _,
      fun _ => rfl⟩ (hwhy.imp_right .inl)⟩
    rw [coreAddMemorySpace, hadd]
    exact if_pos (Or.inl herr)
  -- the type of the first address tells the maps behind the add from the map before it
  have had : TypeAt type base st₁ := by
    obtain ⟨d', hd', ht, -⟩ := hfree base (Nat.le_refl _) (by omega)
    exact ⟨d', hd', ht⟩
  have hne : ∀ {st'}, TypeAt type base st' → st' ≠ st := by
    rintro _ ⟨e, he, ht⟩ rfl
    rw [hd, mem_singleton] at he
    rw [← ht, he, hold] at htype
    simp at htype
  rw [or_iff_right hocc, or_iff_right (by simp [hpool])]
  rcases Nat.eq_zero_or_pos (wholePages base length) with hz | hpos
  · obtain ⟨o, ho, hnot⟩ := added_without_page hmax hst₁ htype (by omega) hz hadd (hne had)
    exact ⟨o, ho, iff_of_false hnot (by omega)⟩
  · rw [and_iff_right hpos]
    exact added_with_pages hmax hst₁ hcore htype (by omega) hpos hadd hfree had hne

/-- A call for the range at `0x1000`, on the initial maps. -/
def addSample (length : ℕ) : Option AddOutcome :=
  coreAddMemorySpace (fun _ => plainEnv) 1 .systemMemory (coreInitializeGcdServices 36 16) 0x1000
    length 0

/-- The page of the range goes to the page allocator. -/
theorem coreAddMemorySpace_right_one_page : ∃ o, addSample 0x1800 = some o ∧
    o.handed = [(0x1000, 1)] ∧ AddRight (coreInitializeGcdServices 36 16) 0x1000 0x1800 o := by
  obtain ⟨o, ho, hright⟩ := @coreAddMemorySpace_right_iff (fun _ => plainEnv) 1 0x1000 0x1800 36
    .systemMemory 0 (spaceMax 36 16) (coreInitializeGcdServices 36 16) (by decide) rfl
    (by decide) (coreInitializeGcdServices_partitioned 36 16) (by decide) (Or.inl rfl) (by decide)
    (by decide)
  have hh : (addSample 0x1800).map (·.handed) = some [(0x1000, 1)] := by decide +kernel
  rw [addSample, ho] at hh
  exact ⟨o, ho, some.inj hh, hright.mpr (Or.inr (Or.inr ⟨by decide, Or.inl rfl⟩))⟩

/-- Half a page: the range is added, and the call fails. -/
theorem not_addRight_half_page : ∃ o, addSample 0x800 = some o ∧ o.status = .invalidParameter ∧
    o.state.memorySpaceMap.length = 3 ∧
    ¬ AddRight (coreInitializeGcdServices 36 16) 0x1000 0x800 o := by
  have hr : (addSample 0x800).map (fun o => (o.status, o.state.memorySpaceMap.length)) =
      some (.invalidParameter, 3) := by decide +kernel
  obtain ⟨o, ho, hre⟩ := Option.map_eq_some_iff.mp hr
  obtain ⟨hs, hl⟩ := Prod.mk.inj hre
  refine ⟨o, ho, hs, hl, fun hri => ?_⟩
  rw [hri.unchanged (by rw [hs]; rfl)] at hl
  cases hl

end Edk2.Gcd

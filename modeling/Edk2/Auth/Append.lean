import Edk2.Auth.Filter

/-!
# Signature lists as values

What `FilterSignatureList` does, over the signature lists that a buffer encodes: the lists of the
new data without the signatures that the variable has. A second filter, against the variable with
what the first one left appended, leaves nothing.

## Main results

* `entries_without`: the signatures that are left
* `filterSignatureList_append`: the filter on encoded lists, and once more on what it left
-/

namespace Edk2.Auth

open List

/-! ## Lists and their bytes -/

/-- An `EFI_SIGNATURE_LIST` with its `SignatureHeader` and its signatures. -/
structure SignatureList where
  type : EfiGuid
  header : List UInt8
  size : ℕ
  signatures : List (List UInt8)
  length_type : type.length = 16
  size_pos : 0 < size
  size_lt : size < 2 ^ 32
  length_signature : ∀ s ∈ signatures, s.length = size
  total_lt : 28 + header.length + signatures.length * size < 2 ^ 32

namespace SignatureList

/-- `SignatureListSize`. -/
def total (l : SignatureList) : ℕ := 28 + l.header.length + l.signatures.length * l.size

def bytes (l : SignatureList) : List UInt8 :=
  l.type ++ (leBytes 4 l.total ++ (leBytes 4 l.header.length ++ (leBytes 4 l.size ++
    (l.header ++ l.signatures.flatten))))

/-- The list with the signatures that `p` accepts. -/
def keep (l : SignatureList) (p : List UInt8 → Bool) : SignatureList where
  type := l.type
  header := l.header
  size := l.size
  signatures := l.signatures.filter p
  length_type := l.length_type
  size_pos := l.size_pos
  size_lt := l.size_lt
  length_signature s hs := l.length_signature s (mem_of_mem_filter hs)
  total_lt := by
    have hle := Nat.mul_le_mul_right l.size (length_filter_le p l.signatures)
    have hlt := l.total_lt
    omega

end SignatureList

def bytesOf (ls : List SignatureList) : List UInt8 := ls.flatMap SignatureList.bytes

/-- The signatures of lists: type, size, owner and data. -/
def entries (ls : List SignatureList) : List (EfiGuid × ℕ × List UInt8) :=
  ls.flatMap fun l => l.signatures.map fun s => (l.type, l.size, s)

/-- The lists of `new` without the signatures of `data`. -/
def without (data new : List SignatureList) : List SignatureList :=
  (new.map fun l => l.keep fun s => (l.type, l.size, s) ∉ entries data).filter (·.signatures ≠ [])

variable {data new ls : List SignatureList} {l : SignatureList}

theorem entries_cons (l : SignatureList) (ls : List SignatureList) :
    entries (l :: ls) = (l.signatures.map fun s => (l.type, l.size, s)) ++ entries ls :=
  flatMap_cons

theorem bytesOf_append (ks ls : List SignatureList) :
    bytesOf (ks ++ ls) = bytesOf ks ++ bytesOf ls := flatMap_append

/-- What is left of a new list. -/
theorem mem_without (h : l ∈ without data new) :
    l.signatures ≠ [] ∧ ∃ l' ∈ new, l.type = l'.type ∧ l.header = l'.header ∧ l.size = l'.size := by
  obtain ⟨hm, hs⟩ := mem_filter.mp h
  obtain ⟨l', hl, rfl⟩ := mem_map.mp hm
  exact ⟨of_decide_eq_true hs, l', hl, rfl, rfl, rfl⟩

/-- **The signatures that are left** are those that are not in `data`, in their order. -/
theorem entries_without (data new : List SignatureList) :
    entries (without data new) = (entries new).filter (· ∉ entries data) := by
  have he (ls : List SignatureList) : entries (ls.filter (·.signatures ≠ [])) = entries ls := by
    induction ls with
    | nil => rfl
    | cons l ls ih =>
      by_cases hs : l.signatures = []
      · rw [filter_cons_of_neg (by simpa using hs), ih, entries_cons, hs, map_nil, nil_append]
      · rw [filter_cons_of_pos (by simpa using hs), entries_cons, ih, entries_cons]
  rw [without, he, entries, flatMap_map]
  refine Eq.trans ?_ filter_flatMap.symm
  refine flatMap_congr fun l _ => ?_
  rw [filter_map]
  rfl

/-- A second append finds nothing new. -/
theorem without_append (data new : List SignatureList) :
    without (data ++ without data new) new = [] := by
  refine filter_eq_nil_iff.mpr (forall_mem_map.mpr fun l hl => ?_)
  have hk : (l.keep fun s =>
      (l.type, l.size, s) ∉ entries (data ++ without data new)).signatures = [] := by
    refine filter_eq_nil_iff.mpr fun s hs => ?_
    have hn : (l.type, l.size, s) ∈ entries new :=
      mem_flatMap.mpr ⟨l, hl, mem_map.mpr ⟨s, hs, rfl⟩⟩
    have he : (l.type, l.size, s) ∈ entries (data ++ without data new) := by
      rw [entries, flatMap_append, ← entries, ← entries, entries_without, mem_append, mem_filter]
      by_cases hd : (l.type, l.size, s) ∈ entries data <;> simp [hd, hn]
    simpa using he
  simpa using hk

/-! ## Lists in memory -/

/-- The bytes are at the position. -/
def BytesAt (m : Memory) (pos : ℕ) (bs : List UInt8) : Prop := bytesAt m pos bs.length = bs

/-- What the filter reads of a list. -/
structure Reads (m : Memory) (pos : ℕ) (l : SignatureList) : Prop where
  type : signatureType m pos = l.type
  listSize : signatureListSize m pos = l.total
  headerSize : signatureHeaderSize m pos = l.header.length
  size : signatureSize m pos = l.size
  header : BytesAt m (pos + 20) (leBytes 4 l.header.length ++ (leBytes 4 l.size ++ l.header))
  signatures : BytesAt m (firstSignature m pos) l.signatures.flatten
  count : signatureCount m pos = l.signatures.length

section Memory

variable {m dm nm : Memory} {pos fuel : ℕ}

theorem bytesAt_append_iff {bs cs : List UInt8} :
    BytesAt m pos (bs ++ cs) ↔ BytesAt m pos bs ∧ BytesAt m (pos + bs.length) cs := by
  unfold BytesAt
  rw [length_append, bytesAt_add]
  constructor
  · intro h
    exact append_inj h (length_bytesAt m pos _)
  · rintro ⟨hb, hc⟩
    rw [hb, hc]

theorem BytesAt.le_eq {x : ℕ} (h : BytesAt m pos (leBytes 4 x)) (hx : x < 2 ^ 32) :
    le m pos 4 = x := by
  rw [BytesAt, length_leBytes] at h
  rw [le_of_bytesAt h]
  exact Nat.mod_eq_of_lt hx

theorem length_flatten_signatures (l : SignatureList) :
    l.signatures.flatten.length = l.signatures.length * l.size := by
  rw [length_flatten, map_congr_left l.length_signature, map_const', sum_replicate_nat]

theorem SignatureList.length_bytes (l : SignatureList) : l.bytes.length = l.total := by
  simp only [bytes, length_append, l.length_type, length_leBytes, length_flatten_signatures, total]
  omega

/-- The bytes of a list are read back. -/
theorem BytesAt.reads (h : BytesAt m pos l.bytes) : Reads m pos l := by
  simp only [SignatureList.bytes, bytesAt_append_iff, l.length_type, length_leBytes,
    Nat.add_assoc, Nat.reduceAdd] at h
  obtain ⟨ht, hl, hh, hs, hb, hg⟩ := h
  have hlt := l.total_lt
  have hz : signatureSize m pos = l.size := hs.le_eq l.size_lt
  have hd : signatureHeaderSize m pos = l.header.length := hh.le_eq (by omega)
  have hw : signatureListSize m pos = l.total := hl.le_eq hlt
  refine ⟨?_, hw, hd, hz, ?_, ?_, ?_⟩
  · rwa [BytesAt, l.length_type] at ht
  · simpa only [bytesAt_append_iff, length_leBytes, Nat.add_assoc] using And.intro hh ⟨hs, hb⟩
  · rwa [firstSignature, hd, signatureListHeader, Nat.add_assoc]
  · have hb : signatureBody m pos = l.signatures.length * l.size := by
      rw [signatureBody, hw, hd, signatureListHeader, SignatureList.total,
        sub64_of_le (a := 28 + l.header.length + _) (by omega) (by omega), sub64_of_le] <;> omega
    rw [signatureCount, hb, hz]
    exact Nat.mul_div_cancel _ l.size_pos

theorem signatures_of_bytesAt {ss : List (List UInt8)} {size : ℕ} (h : BytesAt m pos ss.flatten)
    (hs : ∀ s ∈ ss, s.length = size) :
    ((List.range ss.length).map fun i => bytesAt m (pos + i * size) size) = ss := by
  induction ss generalizing pos with
  | nil => rfl
  | cons s ss ih =>
    obtain ⟨hh, ht⟩ := bytesAt_append_iff.mp h
    obtain ⟨rfl, hs⟩ := forall_mem_cons.mp hs
    rw [length_cons, range_succ_eq_map, map_cons, map_map, Nat.zero_mul, Nat.add_zero, hh]
    refine congrArg _ (Eq.trans ?_ (ih ht hs))
    refine map_congr_left fun i _ => ?_
    rw [Function.comp_apply, Nat.succ_mul, Nat.add_assoc, Nat.add_comm s.length]

theorem Reads.signaturesOf_eq (h : Reads m pos l) : signaturesOf m pos = l.signatures := by
  have he := signatures_of_bytesAt h.signatures l.length_signature
  rw [signaturesOf, signaturesAt, map_map, h.count, h.size]
  exact he

/-! ## The loops -/

theorem length_bytesOf_cons (l : SignatureList) (ls : List SignatureList) :
    (bytesOf (l :: ls)).length = l.total + (bytesOf ls).length := by
  rw [bytesOf, flatMap_cons, length_append, l.length_bytes, ← bytesOf]

theorem bytesAt_bytesOf_cons (h : BytesAt m pos (bytesOf (l :: ls))) :
    Reads m pos l ∧ BytesAt m (pos + l.total) (bytesOf ls) := by
  rw [bytesOf, flatMap_cons, bytesAt_append_iff, l.length_bytes] at h
  exact ⟨h.1.reads, h.2⟩

theorem Reads.withinSize (h : Reads m pos l) (n : ℕ) : WithinSize m (l.total + n) pos := by
  constructor
  · rw [SignatureList.total]
    omega
  · rw [h.listSize]
    omega

/-- **A signature is new** if no list has it. -/
theorem loop_isNewStep {list cert : ℕ} (h : BytesAt dm pos (bytesOf ls)) (hf : ls.length < fuel) :
    loop (isNewStep dm nm list cert) fuel ((bytesOf ls).length, pos) =
      some (decide ((signatureType nm list, signatureSize nm list,
        bytesAt nm cert (signatureSize nm list)) ∉ entries ls)) := by
  induction ls generalizing pos fuel with
  | nil =>
    cases fuel with
    | zero => exact absurd hf (Nat.not_lt_zero _)
    | succ fuel => exact loop_inr (if_neg (by simp [bytesOf]))
  | cons l ls ih =>
    obtain ⟨hr, ht⟩ := bytesAt_bytesOf_cons h
    cases fuel with
    | zero => exact absurd hf (Nat.not_lt_zero _)
    | succ fuel =>
    have hin : InList dm nm list cert pos ↔
        (signatureType nm list, signatureSize nm list, bytesAt nm cert (signatureSize nm list)) ∈
          l.signatures.map fun s => (l.type, l.size, s) := by
      rw [InList, hr.type, hr.size, hr.signaturesOf_eq]
      aesop
    have hw := hr.withinSize (bytesOf ls).length
    rw [length_bytesOf_cons, entries_cons]
    by_cases hi : InList dm nm list cert pos
    · have hs : isNewStep dm nm list cert (l.total + (bytesOf ls).length, pos) = .inr false :=
        (if_pos hw).trans (if_pos (inList_iff.mp hi))
      rw [loop_inr hs]
      simp only [mem_append, hin.mp hi, true_or, not_true_eq_false, decide_false]
    · have hs : isNewStep dm nm list cert (l.total + (bytesOf ls).length, pos) =
          .inl ((bytesOf ls).length, pos + l.total) := by
        refine ((if_pos hw).trans (if_neg (inList_iff.not.mp hi))).trans ?_
        rw [hr.listSize, Nat.add_sub_cancel_left]
      rw [loop_inl hs, ih ht (Nat.lt_of_succ_lt_succ hf)]
      simp only [mem_append, hin.not.mp hi, false_or]

/-- The signatures of a list that are new. -/
theorem newSignatures_eq {list : ℕ} {ss : List (List UInt8)} (hd : BytesAt dm 0 (bytesOf data))
    (hf : data.length < fuel) (h : BytesAt nm pos ss.flatten)
    (hs : ∀ s ∈ ss, s.length = signatureSize nm list) :
    newSignatures fuel dm (bytesOf data).length nm list ss.length pos =
      some (ss.filter fun s =>
        (signatureType nm list, signatureSize nm list, s) ∉ entries data) := by
  induction ss generalizing pos with
  | nil => rfl
  | cons s ss ih =>
    obtain ⟨hh, ht⟩ := bytesAt_append_iff.mp h
    obtain ⟨hz, hs⟩ := forall_mem_cons.mp hs
    rw [BytesAt, hz] at hh
    rw [hz] at ht
    rw [length_cons, newSignatures, loop_isNewStep hd hf, ih ht hs, hh, filter_cons]
    dsimp only
    split_ifs <;> rfl

theorem Reads.keptList_eq (h : Reads nm pos l) (p : List UInt8 → Bool) :
    keptList nm pos (l.keep p).signatures = bytesOf ([l.keep p].filter (·.signatures ≠ [])) := by
  by_cases hk : (l.keep p).signatures = []
  · rw [keptList, if_pos hk, filter_cons_of_neg (by simpa using hk)]
    rfl
  have ht : bytesAt nm pos 16 = l.type := h.type
  have hb := h.header
  rw [BytesAt, length_append, length_append, length_leBytes, length_leBytes, ← Nat.add_assoc] at hb
  rw [keptList, if_neg hk, filter_cons_of_pos (by simpa using hk), filter_nil, ht, h.headerSize,
    h.size, hb]
  simp only [bytesOf, flatMap_cons, flatMap_nil, append_nil, append_assoc, SignatureList.bytes]
  rfl

/-- The loop over the new lists. -/
theorem loop_filterStep {rounds : ℕ} {tail : List UInt8} (hd : BytesAt dm 0 (bytesOf data))
    (hf : data.length < fuel) (h : BytesAt nm pos (bytesOf new)) (hr : new.length < rounds) :
    loop (filterStep fuel dm (bytesOf data).length nm) rounds ⟨(bytesOf new).length, pos, tail⟩ =
      some (some (tail ++ bytesOf (without data new))) := by
  induction new generalizing pos rounds tail with
  | nil =>
    cases rounds with
    | zero => exact absurd hr (Nat.not_lt_zero _)
    | succ rounds =>
      have hs : filterStep fuel dm (bytesOf data).length nm ⟨0, pos, tail⟩ = .inr (some tail) :=
        if_neg fun hw => Nat.lt_irrefl 0 hw.1
      exact (loop_inr hs).trans (congrArg (some ∘ some) (append_nil tail).symm)
  | cons l new ih =>
    obtain ⟨hl, ht⟩ := bytesAt_bytesOf_cons h
    cases rounds with
    | zero => exact absurd hr (Nat.not_lt_zero _)
    | succ rounds =>
    have hn := newSignatures_eq hd hf hl.signatures
      fun s hs => (l.length_signature s hs).trans hl.size.symm
    have hs : filterStep fuel dm (bytesOf data).length nm
        ⟨l.total + (bytesOf new).length, pos, tail⟩ =
          .inl ⟨(bytesOf new).length, pos + l.total, tail ++ bytesOf (without data [l])⟩ := by
      refine (if_pos (hl.withinSize _)).trans ((if_neg (hl.size ▸ l.size_pos.ne')).trans ?_)
      rw [hl.count, hn, hl.type, hl.size, hl.listSize, Nat.add_sub_cancel_left]
      exact congrArg (fun t => Sum.inl (FilterWalk.mk _ _ (tail ++ t))) (hl.keptList_eq _)
    have hw : without data (l :: new) = without data [l] ++ without data new := by
      rw [without, ← singleton_append, map_append, filter_append]
      rfl
    rw [length_bytesOf_cons, loop_inl hs, ih ht (Nat.lt_of_succ_lt_succ hr), append_assoc, hw,
      bytesOf_append]

/-- **The filter drops the signatures that are there.** -/
theorem filterSignatureList_bytesOf (scratchBufferSize : ℕ) (hd : BytesAt dm 0 (bytesOf data))
    (hn : BytesAt nm 0 (bytesOf new)) (hf : data.length < fuel) (hg : new.length < fuel) :
    filterSignatureList scratchBufferSize fuel dm (bytesOf data).length nm (bytesOf new).length =
      some (if scratchBufferSize < (bytesOf new).length then (.outOfResources, bytesOf new)
        else (.success, bytesOf (without data new))) := by
  rw [filterSignatureList, loop_filterStep hd hf hn hg, hn]
  cases new with
  | nil => rfl
  | cons l new =>
    have hp : (bytesOf (l :: new)).length ≠ 0 := by
      rw [length_bytesOf_cons, SignatureList.total]
      omega
    rw [if_neg hp, apply_ite some]
    rfl

/-- **Appending signatures**: with a scratch buffer the filter leaves the signatures of the new data
that the data does not have, in lists with the headers they had; filtered against the data followed
by these nothing is left. -/
theorem filterSignatureList_append {scratchBufferSize : ℕ} {appended : Memory}
    (hd : BytesAt dm 0 (bytesOf data)) (hn : BytesAt nm 0 (bytesOf new))
    (ha : BytesAt appended 0 (bytesOf data ++ bytesOf (without data new)))
    (hf : data.length + new.length < fuel) :
    filterSignatureList scratchBufferSize fuel dm (bytesOf data).length nm (bytesOf new).length =
        some (if scratchBufferSize < (bytesOf new).length then (.outOfResources, bytesOf new)
          else (.success, bytesOf (without data new))) ∧
      entries (without data new) = (entries new).filter (· ∉ entries data) ∧
      (∀ l ∈ without data new, l.signatures ≠ [] ∧
        ∃ l' ∈ new, l.type = l'.type ∧ l.header = l'.header ∧ l.size = l'.size) ∧
      filterSignatureList scratchBufferSize fuel appended
          (bytesOf data ++ bytesOf (without data new)).length nm (bytesOf new).length =
        some (if scratchBufferSize < (bytesOf new).length then (.outOfResources, bytesOf new)
          else (.success, [])) := by
  refine ⟨filterSignatureList_bytesOf _ hd hn (by omega) (by omega), entries_without data new,
    fun _ => mem_without, ?_⟩
  have hw : (without data new).length ≤ new.length :=
    (length_filter_le _ _).trans_eq (length_map _)
  have hl : (data ++ without data new).length < fuel := by
    rw [length_append]
    omega
  rw [← bytesOf_append] at ha ⊢
  rw [filterSignatureList_bytesOf _ ha hn hl (by omega), without_append]
  rfl

/-- Two signatures of one byte. -/
def signaturePair : SignatureList where
  type := replicate 16 0
  header := []
  size := 1
  signatures := [[1], [2]]
  length_type := rfl
  size_pos := Nat.one_pos
  size_lt := by decide
  length_signature := by decide
  total_lt := by decide

theorem filterSignatureList_append_signaturePair :
    filterSignatureList 64 3 (storeBytes (fun _ => 0) 0 (bytesOf [signaturePair.keep (· = [1])])) 29
        (storeBytes (fun _ => 0) 0 (bytesOf [signaturePair])) 30 =
      some (.success, bytesOf [signaturePair.keep (· = [2])]) :=
  (@filterSignatureList_append [signaturePair.keep (· = [1])] [signaturePair] _ _ 3 64 _
    (bytesAt_storeBytes _ _ _) (bytesAt_storeBytes _ _ _) (bytesAt_storeBytes (fun _ => 0) _ _)
    (by decide)).1

end Memory

end Edk2.Auth

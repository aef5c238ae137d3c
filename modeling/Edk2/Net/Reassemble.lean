import Edk2.Lib.Run
import Edk2.Lib.Tiling
import Edk2.Net.Copy
import Edk2.Net.Fragment
import Mathlib.Tactic.Tauto

/-!
# IPv4 reassembly

`Ip4Reassemble` keeps the fragments of a datagram in a list, ordered by where they start. A new
fragment is cut by the fragment before it, removes the fragments it covers, and is cut by the one
behind them; when the fragments add up to the length of the datagram they are joined.

`Ip4TrimPacket` computes the length to cut off the end of a packet with the operands exchanged: the
negative length, as a 32-bit value, cuts off all of the packet, and `Length` grows. The lists are
right for as long as no fragment has to be cut at its end.

Positions and lengths (`INTN`) are integers; they stay far below the bounds of their type. A result
`none` stands for a failed `ASSERT`.

## Main results

* `assembleFragment_sound`: a fragment that is not cut at its end keeps the list sound
* `deliver_carried`: a packet that is returned holds the bytes that were received
* `reassembly_of_run`: both for every run
* `reassembled_in_any_order`: the fragments of a datagram are joined in whatever order they arrive
-/

namespace Edk2.Net

open List Option

/-- `IP4_HEAD`: the fields that identify a datagram, and `Fragment`. -/
structure Ip4Head where
  dst : BitVec 32
  src : BitVec 32
  id : BitVec 16
  protocol : BitVec 8
  fragment : BitVec 16
  deriving DecidableEq

/-- A packet: its net buffer, `Ip.Ip4`, and the `IP4_CLIP_INFO` in `ProtoData`. -/
structure Ip4Packet where
  nbuf : NetBuf
  ip : Ip4Head
  info : ClipInfo
  deriving DecidableEq

open Ip4Packet (info)

/-- `IP4_LAST_FRAGMENT`: `IP4_HEAD_MF_MASK` is clear. -/
def ip4LastFragment (fragment : BitVec 16) : Bool := fragment &&& 0x2000#16 = 0#16

/-- Two heads name the same datagram. -/
def Ip4Head.Related (h₁ h₂ : Ip4Head) : Prop :=
  h₁.dst = h₂.dst ∧ h₁.src = h₂.src ∧ h₁.id = h₂.id ∧ h₁.protocol = h₂.protocol

instance (h₁ h₂ : Ip4Head) : Decidable (h₁.Related h₂) := inferInstanceAs (Decidable (_ ∧ _))

def ip4AssembleHash (h : Ip4Head) : ℕ :=
  (h.dst + h.src + (h.id.setWidth 32 <<< 16) + h.protocol.setWidth 32).toNat % 31

/-- `IP4_ASSEMBLE_ENTRY`. The fields `Dst`, `Src`, `Id` and `Protocol` are those of `ident`, the
head of the fragment that created the entry; `Head` and `Info`, which are set together, are `head`.
-/
structure Assemble where
  ident : Ip4Head
  totalLen : ℤ
  curLen : ℤ
  fragments : List Ip4Packet
  head : Option (Ip4Head × ClipInfo)
  deriving DecidableEq

def ip4CreateAssembleEntry (ident : Ip4Head) : Assemble := ⟨ident, 0, 0, [], none⟩

/-- `IP4_ASSEMBLE_TABLE`. -/
abbrev AssembleTable := ℕ → List Assemble

/-- The packet that is returned, with the entry that `Ip4OnFreeFragments` gets as its argument. -/
structure NewPacket where
  packet : Ip4Packet
  arg : Assemble

/-! ## Trimming -/

/-- The first branch of `Ip4TrimPacket`. -/
def trimHead (p : Ip4Packet) (start : ℤ) : Option Ip4Packet :=
  let len := start - p.info.start
  (netbufTrim p.nbuf (toUInt32 len) true).map fun r =>
    { p with
      nbuf := r.1
      info := { p.info with start := start, length := p.info.length - len } }

/-- The second branch: `Len` is `End - Info->End`, which is negative. -/
def trimTail (p : Ip4Packet) (endPos : ℤ) : Option Ip4Packet :=
  let len := endPos - p.info.endPos
  (netbufTrim p.nbuf (toUInt32 len) false).map fun r =>
    { p with
      nbuf := r.1
      info := { p.info with endPos := endPos, length := p.info.length - len } }

def ip4TrimPacket (p : Ip4Packet) (start endPos : ℤ) : Option Ip4Packet :=
  if p.info.start + p.info.length ≠ p.info.endPos then none
  else if ¬ (p.info.start < endPos ∧ start < p.info.endPos) then none
  else
    (if p.info.start < start then trimHead p start else some p).bind fun p =>
      if endPos < p.info.endPos then trimTail p endPos else some p

/-! ## Reassembly -/

/-- The check against the previous fragment; the inner `none` is a packet that is freed. -/
def cutByPrev (p : Ip4Packet) (before : List Ip4Packet) : Option (Option Ip4Packet) :=
  match before.getLast? with
  | none => some (some p)
  | some prev =>
    if p.info.start < prev.info.endPos then
      if p.info.endPos ≤ prev.info.endPos then some none
      else (ip4TrimPacket p prev.info.endPos p.info.endPos).map some
    else some (some p)

/-- The loop over the fragments behind the insertion point: `CurLen`, the fragments that are left,
and the packet unless it is dropped. -/
def removeOverlapped (p : Ip4Packet) :
    ℤ → List Ip4Packet → Option (ℤ × List Ip4Packet × Option Ip4Packet)
  | curLen, [] => some (curLen, [], some p)
  | curLen, f :: fs =>
    if f.info.endPos ≤ p.info.endPos then removeOverlapped p (curLen - f.info.length) fs
    else if f.info.start < p.info.endPos then
      if p.info.start = f.info.start then some (curLen, f :: fs, none)
      else (ip4TrimPacket p p.info.start f.info.start).map fun p => (curLen, f :: fs, some p)
    else some (curLen, f :: fs, some p)

/-- The update of the assemble info by a packet that was inserted. -/
def updateInfo (a : Assemble) (p : Ip4Packet) : Option Assemble :=
  if p.info.start = 0 ∧ a.head.isSome then none
  else some
    { a with
      curLen := a.curLen + p.info.length
      head := if p.info.start = 0 then some (p.ip, p.info) else a.head
      totalLen :=
        if ip4LastFragment p.ip.fragment ∧ a.totalLen = 0 then p.info.endPos else a.totalLen }

/-- The results of the allocations of a call: the assemble entry, the table of fragments and the
buffer structure of `NetbufFromBufList`. -/
structure ReassembleAlloc where
  entry : Bool
  table : Bool
  struct : Bool

/-- What becomes of an entry: it stays, or it is removed, with or without a packet. -/
inductive Outcome
  | kept (a : Assemble)
  | removed (out : Option NewPacket)

/-- The end of `Ip4Reassemble`: the fragments are joined if they are all there. -/
def deliver (m : Memory) (a : Assemble) (alloc : ReassembleAlloc) : Option Outcome :=
  if a.totalLen ≠ 0 ∧ a.curLen ≥ a.totalLen then
    match a.fragments.getLast? with
    | none => none
    | some last =>
      if last.info.endPos ≠ a.totalLen then some (.removed none)
      else
        match netbufFromBufList m (a.fragments.map Ip4Packet.nbuf) 0 0 alloc.table
          ⟨none, alloc.struct⟩, a.head with
        | none, _ => none
        | some none, _ => some (.removed none)
        | some (some _), none => none
        | some (some (nbuf, _)), some (ip, info) => some (.removed (some ⟨⟨nbuf, ip, info⟩, a⟩))
  else some (.kept a)

/-- `Ip4Reassemble` for the entry of the fragment. -/
def assembleFragment (m : Memory) (a : Assemble) (p : Ip4Packet) (alloc : ReassembleAlloc) :
    Option Outcome :=
  let before := a.fragments.takeWhile (notBehind info p)
  match cutByPrev p before with
  | none => none
  | some none => some (.kept a)
  | some (some p') =>
    match removeOverlapped p' a.curLen (a.fragments.dropWhile (notBehind info p)) with
    | none => none
    | some (curLen, rest, none) => some (.kept { a with curLen := curLen, fragments := before ++ rest })
    | some (curLen, rest, some p'') =>
      (updateInfo { a with curLen := curLen, fragments := before ++ p'' :: rest } p'').bind
        fun a => deliver m a alloc

/-- The search for the entry of a fragment in its bucket: the entries before it, the entry, and
those behind it. A new entry is put first; `none` if it cannot be allocated. -/
def findEntry (bucket : List Assemble) (ip : Ip4Head) (alloc : ReassembleAlloc) :
    Option (List Assemble × Assemble × List Assemble) :=
  match bucket.dropWhile fun a => ¬ a.ident.Related ip with
  | a :: behind => some (bucket.takeWhile (fun a => ¬ a.ident.Related ip), a, behind)
  | [] => if alloc.entry then some ([], ip4CreateAssembleEntry ip, bucket) else none

def ip4Reassemble (m : Memory) (t : AssembleTable) (p : Ip4Packet) (alloc : ReassembleAlloc) :
    Option (AssembleTable × Option NewPacket) :=
  let index := ip4AssembleHash p.ip
  match findEntry (t index) p.ip alloc with
  | none => some (t, none)
  | some (before, a, behind) =>
    match assembleFragment m a p alloc with
    | none => none
    | some (.kept a) => some (Function.update t index (before ++ a :: behind), none)
    | some (.removed out) => some (Function.update t index (before ++ behind), out)

/-! ## What the lists are to be -/

def ip4MaxPacketSize : ℤ := 65535

/-- **A fragment as `Ip4PreProcessPacket` hands it over**: the clip info is consistent with the
payload and ends within `IP4_MAX_PACKET_SIZE`. -/
structure Ip4Packet.WellFormed (p : Ip4Packet) : Prop where
  nonneg : 0 ≤ p.info.start
  start_lt : p.info.start < p.info.endPos
  endPos_le : p.info.endPos ≤ ip4MaxPacketSize
  length_eq : p.info.length = p.info.endPos - p.info.start
  valid : p.nbuf.Valid
  totalSize_eq : (p.nbuf.totalSize : ℤ) = p.info.length

/-- The packet holds the bytes that `r` carries for its part of the datagram. -/
structure CarriedBy (m : Memory) (p r : Ip4Packet) : Prop where
  start_le : r.info.start ≤ p.info.start
  endPos_le : p.info.endPos ≤ r.info.endPos
  content_eq : p.nbuf.content m
    = ((r.nbuf.content m).drop (p.info.start - r.info.start).toNat).take p.nbuf.totalSize

/-- **What an assemble entry is to be**, for the fragments `R` received so far. -/
structure Sound (m : Memory) (R : List Ip4Packet) (a : Assemble) : Prop where
  disjoint : a.fragments.Pairwise fun f g => f.info.endPos ≤ g.info.start
  wellFormed : ∀ f ∈ a.fragments, f.WellFormed
  carried : ∀ f ∈ a.fragments, ∃ r ∈ R, r.ip.Related a.ident ∧ CarriedBy m f r
  curLen_eq : a.curLen = (a.fragments.map fun f => f.info.length).sum
  head_iff : a.head.isSome ↔ ∃ f ∈ a.fragments, f.info.start = 0

/-- **The fragment is not to be cut at its end**: where it would end inside a stored fragment that
starts behind it, the stored fragments before that one cover the rest of it. -/
def NoTailCut (fragments : List Ip4Packet) (p : Ip4Packet) : Prop :=
  ∀ f ∈ fragments, p.info.start < f.info.start → f.info.start < p.info.endPos →
    p.info.endPos < f.info.endPos →
      ∃ prev ∈ fragments, prev.info.start ≤ p.info.start ∧ prev.info.endPos = f.info.start

instance (fragments : List Ip4Packet) (p : Ip4Packet) : Decidable (NoTailCut fragments p) :=
  inferInstanceAs (Decidable (∀ f ∈ fragments, _))

/-! ## Cutting the front of a packet -/

section Trim

variable {m : Memory} {p : Ip4Packet} {start : ℤ}

theorem Ip4Packet.WellFormed.length_content (h : p.WellFormed) (m : Memory) :
    ((p.nbuf.content m).length : ℤ) = p.info.endPos - p.info.start := by
  rw [h.valid.length_content, h.totalSize_eq, h.length_eq]

theorem CarriedBy.refl (h : p.WellFormed) (m : Memory) : CarriedBy m p p where
  start_le := Int.le_refl _
  endPos_le := Int.le_refl _
  content_eq := by
    rw [Int.sub_self, Int.toNat_zero, drop_zero,
      take_of_length_le (le_of_eq (h.valid.length_content m))]

/-- **What is cut off the front** leaves a well-formed packet with the bytes behind. -/
theorem trimHead_spec (h : p.WellFormed) (hst : p.info.start < start)
    (he : start < p.info.endPos) :
    ∃ p', trimHead p start = some p' ∧ p'.WellFormed ∧ p'.ip = p.ip ∧ p'.info.start = start ∧
      p'.info.endPos = p.info.endPos ∧ ∀ m, CarriedBy m p' p := by
  have hn := h.nonneg
  have hmax : p.info.endPos ≤ 65535 := h.endPos_le
  have hl := h.length_eq
  have hto := h.totalSize_eq
  obtain ⟨nbuf', ht, hv, hc⟩ :=
    netbufTrim_spec h.valid (start - p.info.start).toNat true
  have hs : (nbuf'.totalSize : ℤ) = p.info.length - (start - p.info.start) := by
    have hd := congrArg List.length (hc (fun _ => 0))
    rw [if_pos rfl, hv.length_content, length_drop, h.valid.length_content] at hd
    omega
  refine ⟨{ p with
      nbuf := nbuf'
      info := { p.info with start := start, length := p.info.length - (start - p.info.start) } },
    ?_, ⟨?_, he, h.endPos_le, ?_, hv, hs⟩, rfl, rfl, rfl, fun m => ⟨?_, ?_, ?_⟩⟩
  · unfold trimHead
    dsimp only
    rw [toUInt32, Int.emod_eq_of_lt (by omega) (by omega), ht]
    rfl
  · show 0 ≤ start
    omega
  · show p.info.length - (start - p.info.start) = p.info.endPos - start
    omega
  · exact Int.le_of_lt hst
  · exact Int.le_refl _
  · show nbuf'.content m
      = ((p.nbuf.content m).drop (start - p.info.start).toNat).take nbuf'.totalSize
    rw [hc, if_pos rfl, take_of_length_le]
    rw [length_drop, h.valid.length_content]
    omega

/-- **The check against the previous fragment**: a packet that is kept starts where that fragment
ends or behind it, and ends where it did. -/
theorem cutByPrev_spec {before : List Ip4Packet} {p' : Ip4Packet} (h : p.WellFormed)
    (hcu : cutByPrev p before = some (some p')) :
    p'.WellFormed ∧ p'.ip = p.ip ∧ p.info.start ≤ p'.info.start ∧
      p'.info.endPos = p.info.endPos ∧ (∀ m, CarriedBy m p' p) ∧
      (∀ prev, before.getLast? = some prev → prev.info.endPos ≤ p'.info.start) ∧
      (p'.info.start = p.info.start ∨
        ∃ prev, before.getLast? = some prev ∧ p'.info.start = prev.info.endPos) := by
  unfold cutByPrev at hcu
  split at hcu
  · rename_i hnone
    obtain rfl := some.inj (some.inj hcu)
    exact ⟨h, rfl, Int.le_refl _, rfl, CarriedBy.refl h,
      fun prev hp => by simp [hnone] at hp, .inl rfl⟩
  · rename_i prev hlast
    have hu : ∀ prev', before.getLast? = some prev' → prev' = prev := fun prev' hp' =>
      (some.inj (hlast.symm.trans hp')).symm
    split at hcu
    · rename_i ho
      split at hcu
      · cases hcu
      · obtain ⟨p₁, ht, hwf, hip, hs, he, hc⟩ :=
          trimHead_spec h ho (by omega)
        have hl := h.length_eq
        -- the packet keeps its end
        rw [ip4TrimPacket, if_neg (by omega), if_neg (not_not.mpr ⟨h.start_lt, by omega⟩),
          if_pos ho, ht, bind_some, if_neg (by omega)] at hcu
        obtain rfl := some.inj (some.inj hcu)
        refine ⟨hwf, hip, by omega, he, hc, fun prev' hp' => ?_, .inr ⟨prev, hlast, hs⟩⟩
        rw [hu prev' hp', hs]
    · obtain rfl := some.inj (some.inj hcu)
      refine ⟨h, rfl, Int.le_refl _, rfl, CarriedBy.refl h, fun prev' hp' => ?_, .inl rfl⟩
      rw [hu prev' hp']
      omega

end Trim

/-! ## Inserting a packet -/

section Insert

variable {m : Memory} {R : List Ip4Packet} {a a' : Assemble} {p p' : Ip4Packet}
  {before gone rest after : List Ip4Packet} {alloc : ReassembleAlloc}

/-- **The loop removes the fragments that the packet covers.** The packet is dropped, cut at its
end, or inserted as it is. -/
theorem removeOverlapped_spec {curLen curLen' : ℤ} {out : Option Ip4Packet}
    (h : removeOverlapped p curLen after = some (curLen', rest, out)) :
    ∃ gone, after = gone ++ rest ∧ curLen' = curLen - lengthsOf info gone ∧
      ((out = some p ∧ ∀ f, rest.head? = some f → p.info.endPos ≤ f.info.start) ∨
        ∃ f, rest.head? = some f ∧ f.info.start < p.info.endPos ∧ p.info.endPos < f.info.endPos ∧
          (p.info.start = f.info.start ∧ out = none ∨ p.info.start ≠ f.info.start ∧ out ≠ none)) := by
  induction after generalizing curLen with
  | nil =>
    cases h
    exact ⟨[], rfl, by simp, .inl ⟨rfl, fun f hf => by cases hf⟩⟩
  | cons f fs ih =>
    rw [removeOverlapped] at h
    split at h
    · obtain ⟨gone, hs, hc, hout⟩ := ih h
      refine ⟨f :: gone, by rw [hs, cons_append], ?_, hout⟩
      rw [lengthsOf_cons]
      omega
    · refine ⟨[], ?_⟩
      split at h
      · rename_i ho
        split at h
        · rename_i hsa
          cases h
          exact ⟨rfl, by simp, .inr ⟨f, rfl, ho, by omega, .inl ⟨hsa, rfl⟩⟩⟩
        · rename_i hd
          obtain ⟨p', -, heq⟩ := map_eq_some_iff.mp h
          cases heq
          exact ⟨rfl, by simp, .inr ⟨f, rfl, ho, by omega, .inr ⟨hd, by simp⟩⟩⟩
      · cases h
        refine ⟨rfl, by simp, .inl ⟨rfl, fun g hg => ?_⟩⟩
        obtain rfl := some.inj hg
        omega

theorem Sound.mono (h : Sound m R a) (p : Ip4Packet) : Sound m (R ++ [p]) a :=
  { h with
    carried := fun f hf =>
      (h.carried f hf).imp fun _ hr => ⟨mem_append_left _ hr.1, hr.2⟩ }

/-- **An inserted packet keeps the entry sound**: it takes the place of fragments between those that
end before it and those that start behind it. -/
theorem updateInfo_sound (h : Sound m R a) (hsp : a.fragments = before ++ (gone ++ rest))
    (hp' : p'.WellFormed) (hre : p.ip.Related a.ident) (hca : CarriedBy m p' p)
    (hb : ∀ f ∈ before, f.info.endPos ≤ p'.info.start)
    (hgo : ∀ f ∈ gone, 0 < f.info.start) (hr : ∀ f ∈ rest, p'.info.endPos ≤ f.info.start)
    (hu : updateInfo { a with
      curLen := a.curLen - lengthsOf info gone, fragments := before ++ p' :: rest } p' = some a') :
    Sound m (R ++ [p]) a' ∧ a'.ident = a.ident := by
  have hc : a.curLen = lengthsOf info before + (lengthsOf info gone + lengthsOf info rest) := by
    rw [← lengthsOf_append, ← lengthsOf_append, ← hsp]
    exact h.curLen_eq
  have hmem : ∀ f, f ∈ before ++ p' :: rest → f = p' ∨ f ∈ a.fragments := by
    intro f hf
    rw [hsp]
    simp only [mem_append, mem_cons] at hf ⊢
    tauto
  unfold updateInfo at hu
  split at hu
  · cases hu
  · obtain rfl := some.inj hu
    refine ⟨⟨?_, ?_, ?_, ?_, ?_⟩, rfl⟩
    · exact pairwise_replace (hsp ▸ h.disjoint) hb hr
    · intro f hf
      rcases hmem f hf with rfl | hf
      · exact hp'
      · exact h.wellFormed f hf
    · intro f hf
      rcases hmem f hf with rfl | hf
      · exact ⟨p, mem_append_right _ (mem_singleton_self p), hre, hca⟩
      · exact (h.mono p).carried f hf
    · show a.curLen - lengthsOf info gone + p'.info.length = lengthsOf info (before ++ p' :: rest)
      rw [lengthsOf_append, lengthsOf_cons]
      omega
    · by_cases hz : p'.info.start = 0
      · rw [if_pos hz]
        exact ⟨fun _ => ⟨p', by simp, hz⟩, fun _ => rfl⟩
      · -- a fragment that was removed does not start at zero, and neither does the new one
        rw [if_neg hz, h.head_iff, hsp]
        exact exists_mem_replace (fun f hf hs => absurd (hgo f hf) (by omega)) hz

/-- Where an entry is sound, the search for the insertion point splits the fragments by where they
start. -/
theorem Sound.split (h : Sound m R a) (p : Ip4Packet) :
    a.fragments =
        a.fragments.takeWhile (notBehind info p) ++ a.fragments.dropWhile (notBehind info p) ∧
      (∀ f ∈ a.fragments.takeWhile (notBehind info p),
        f ∈ a.fragments ∧ f.info.start ≤ p.info.start) ∧
      ∀ f ∈ a.fragments.dropWhile (notBehind info p),
        f ∈ a.fragments ∧ p.info.start < f.info.start :=
  takeWhile_dropWhile_lo h.disjoint (fun f hf => Int.le_of_lt (h.wellFormed f hf).start_lt)
    fun f => by simp [notBehind]

/-- What an entry becomes is sound, and what is returned comes from a sound entry. -/
def Outcome.Sound (m : Memory) (R : List Ip4Packet) (ident : Ip4Head) (alloc : ReassembleAlloc) :
    Outcome → Prop
  | .kept a => Net.Sound m R a ∧ a.ident = ident
  | .removed out => ∀ new, out = some new → Net.Sound m R new.arg ∧ new.arg.ident = ident ∧
      deliver m new.arg alloc = some (.removed (some new))

theorem deliver_arg {o : Outcome} (h : Sound m R a) (hd : deliver m a alloc = some o) :
    o.Sound m R a.ident alloc := by
  have hs := hd
  unfold deliver at hd
  split at hd
  · split at hd
    · cases hd
    · split at hd
      · cases hd
        exact fun new hnew => by cases hnew
      · split at hd
        · cases hd
        · cases hd
          exact fun new hnew => by cases hnew
        · cases hd
        · cases hd
          intro new hnew
          cases hnew
          exact ⟨h, rfl, hs⟩
  · cases hd
    exact ⟨h, rfl⟩

/-- **A fragment that is not cut at its end keeps the entry sound.** -/
theorem assembleFragment_sound {o : Outcome} (h : Sound m R a) (hp : p.WellFormed)
    (hre : p.ip.Related a.ident) (hcu : NoTailCut a.fragments p)
    (hste : assembleFragment m a p alloc = some o) : o.Sound m (R ++ [p]) a.ident alloc := by
  obtain ⟨hsp, hbe, ha⟩ := h.split p
  have hd := h.disjoint
  unfold assembleFragment at hste
  dsimp only at hste
  generalize a.fragments.takeWhile (notBehind info p) = before at *
  generalize a.fragments.dropWhile (notBehind info p) = after at *
  rw [hsp] at hd
  obtain ⟨hpre, hpo, hc⟩ := pairwise_append.mp hd
  split at hste
  · cases hste
  · cases hste
    exact ⟨h.mono p, rfl⟩
  rename_i p' hprev
  obtain ⟨hp', hip, hst, he, hca, hlast, hw⟩ := cutByPrev_spec hp hprev
  -- the packet starts behind the fragments before it, and not behind those after it
  have hle : ∀ f ∈ before, f.info.endPos ≤ p'.info.start := by
    intro f hf
    obtain ⟨last, hs⟩ := ne_none_iff_exists'.mp
      (mt List.getLast?_eq_none_iff.mp (ne_nil_of_mem hf))
    have he := (hi_le_of_getLast? hpre
      (fun f hf => Int.le_of_lt (h.wellFormed f (hbe f hf).1).start_lt) hs f hf).1
    have := hlast last hs
    omega
  have hri : ∀ f ∈ after, p'.info.start ≤ f.info.start := by
    intro f hf
    have hb := (ha f hf).2
    rcases hw with hsa | ⟨prev, hs, hsa⟩
    · omega
    · rw [hsa]
      exact hc prev (mem_of_getLast? hs) f hf
  split at hste
  · cases hste
  · rename_i curLen rest hl
    obtain ⟨gone, rfl, rfl, hout⟩ := removeOverlapped_spec hl
    obtain ⟨f, hh, -, -, hdr⟩ := hout.resolve_left (by simp)
    obtain ⟨hsa, -⟩ := hdr.resolve_right (by simp)
    have hnone : gone = [] := by
      refine eq_nil_iff_forall_not_mem.mpr fun g hg => ?_
      -- it would lie between the start of the packet and `f`, which starts there
      have := (pairwise_append.mp hpo).2.2 g hg f (mem_of_head? hh)
      have := hri g (mem_append_left _ hg)
      have := (h.wellFormed g (ha g (mem_append_left _ hg)).1).start_lt
      omega
    obtain rfl := some.inj hste
    subst hnone
    have hkept :
        { a with curLen := a.curLen - lengthsOf info [], fragments := before ++ rest } = a := by
      rw [lengthsOf_nil, Int.sub_zero, show before ++ rest = a.fragments from hsp.symm]
    rw [hkept]
    exact ⟨h.mono p, rfl⟩
  · rename_i curLen rest p'' hl
    obtain ⟨gone, rfl, rfl, hout⟩ := removeOverlapped_spec hl
    have hin : p'' = p' ∧ ∀ f, rest.head? = some f → p'.info.endPos ≤ f.info.start := by
      rcases hout with ⟨hsa, hr⟩ | ⟨f, hh, ho, hins, hdi⟩
      · exact ⟨some.inj hsa, hr⟩
      · have hf := mem_append_right gone (mem_of_head? hh)
        obtain ⟨prev, hpr, hprevle, hprevend⟩ := hcu f (ha f hf).1 (ha f hf).2 (by omega)
          (by omega)
        have := hri f hf
        have hprevleft : prev ∈ before := by
          rw [hsp] at hpr
          refine (mem_append.mp hpr).resolve_right fun hmem => ?_
          have := (ha prev hmem).2
          omega
        have := hle prev hprevleft
        exact absurd (by omega)
          (hdi.resolve_left (by simp)).1
    obtain ⟨rfl, hfi⟩ := hin
    have hr : ∀ f ∈ rest, p''.info.endPos ≤ f.info.start := by
      intro f hf
      cases rest with
      | nil => cases hf
      | cons g rest =>
        have hg := hfi g rfl
        rcases mem_cons.mp hf with rfl | hf
        · exact hg
        · have hgf := (pairwise_cons.mp (pairwise_append.mp hpo).2.1).1 f hf
          have := (h.wellFormed g (ha g (mem_append_right _ mem_cons_self)).1).start_lt
          omega
    obtain ⟨a', hu, hde⟩ := bind_eq_some_iff.mp hste
    obtain ⟨hso, hid⟩ := updateInfo_sound h hsp hp' hre (hca m) hle
      (fun g hg => by
        have := (ha g (mem_append_left _ hg)).2
        have := hp.nonneg
        omega) hr hu
    rw [← hid]
    exact deliver_arg hso hde

end Insert

/-! ## The packet that is returned -/

section Deliver

variable {m : Memory} {R : List Ip4Packet} {a : Assemble} {alloc : ReassembleAlloc}

/-- The byte at a position of the datagram was received in a fragment, for that position. -/
def Received (m : Memory) (R : List Ip4Packet) (ident : Ip4Head) (i : ℕ) (byte : UInt8) : Prop :=
  ∃ r ∈ R, r.ip.Related ident ∧ r.info.start ≤ i ∧ (i : ℤ) < r.info.endPos ∧
    (r.nbuf.content m)[(i - r.info.start).toNat]? = some byte

theorem CarriedBy.getElem? {p r : Ip4Packet} (h : CarriedBy m p r) (hp : p.WellFormed) {i : ℤ}
    (hs : p.info.start ≤ i) (he : i < p.info.endPos) :
    (p.nbuf.content m)[(i - p.info.start).toNat]?
      = (r.nbuf.content m)[(i - r.info.start).toNat]? := by
  have := h.start_le
  have := hp.totalSize_eq
  have := hp.length_eq
  rw [h.content_eq, List.getElem?_take_of_lt (by omega), List.getElem?_drop]
  congr 1
  omega

theorem totalsOf_map {fs : List Ip4Packet} (h : ∀ f ∈ fs, f.WellFormed) :
    (totalsOf (fs.map Ip4Packet.nbuf) : ℤ) = lengthsOf info fs := by
  induction fs with
  | nil => rfl
  | cons f fs ih =>
    obtain ⟨hf, hfs⟩ := forall_mem_cons.mp h
    rw [map_cons, totalsOf_cons, lengthsOf_cons, ← ih hfs, ← hf.totalSize_eq]
    omega

/-- **A packet that is returned holds the bytes that were received**: its length is `TotalLen`, and
each of its bytes was carried for its position. -/
theorem deliver_carried {new : NewPacket} (h : Sound m R a)
    (hd : deliver m a alloc = some (.removed (some new))) :
    new.arg = a ∧ new.packet.nbuf.Valid ∧ (new.packet.nbuf.totalSize : ℤ) = a.totalLen ∧
      ∀ i byte, (new.packet.nbuf.content m)[i]? = some byte → Received m R a.ident i byte := by
  unfold deliver at hd
  split at hd
  case isFalse => cases hd
  split at hd
  · cases hd
  rename_i last hlast
  split at hd
  · cases hd
  split at hd
  · cases hd
  · cases hd
  · cases hd
  rename_i nbuf m' ip info hj hh
  cases hd
  have hmem := mem_of_getLast? hlast
  have hu : ∀ f ∈ a.fragments, f.info.endPos ≤ a.totalLen := by
    intro f hf
    have he := (hi_le_of_getLast? h.disjoint
      (fun f hf => Int.le_of_lt (h.wellFormed f hf).start_lt) hlast f hf).1
    omega
  have hw : Within (fun f : Ip4Packet => f.info.start) (fun f => f.info.endPos) 0
      a.fragments a.totalLen :=
    ⟨h.disjoint, fun f hf => Int.le_of_lt (h.wellFormed f hf).start_lt,
      fun f hf => (h.wellFormed f hf).nonneg, hu⟩
  have hl' := h.wellFormed last hmem
  have hn : 0 ≤ a.totalLen := by
    have := hl'.nonneg
    have := hl'.start_lt
    omega
  have hwi : (a.fragments.map fun f => f.info.endPos - f.info.start).sum = a.curLen := by
    rw [h.curLen_eq]
    exact congrArg List.sum (map_congr_left fun f hf => (h.wellFormed f hf).length_eq.symm)
  -- the fragments lie in the datagram and are as long as it: no gap is left
  have hch := chained_of_le_sum hn hw (by rw [hwi]; omega)
  have hwid := sum_width_le hn hw
  have hca : ∀ f ∈ a.fragments, ((f.nbuf.content m).length : ℤ)
      = f.info.endPos - f.info.start := fun f hf => (h.wellFormed f hf).length_content m
  have hs : (totalsOf (a.fragments.map Ip4Packet.nbuf) : ℤ) = a.curLen := by
    rw [totalsOf_map h.wellFormed]
    exact h.curLen_eq.symm
  have hmax : last.info.endPos ≤ 65535 := hl'.endPos_le
  have hv : ∀ nbuf ∈ a.fragments.map Ip4Packet.nbuf, nbuf.Valid := by
    intro nbuf hnb
    obtain ⟨f, hf, rfl⟩ := mem_map.mp hnb
    exact (h.wellFormed f hf).valid
  obtain ⟨hnew, hc⟩ := netbufFromBufList_whole hv (by omega) hj
  rw [contentsOf, flatMap_map] at hc
  have hl := hch.length_flatMap hca
  refine ⟨rfl, hnew, ?_, fun i byte hb => ?_⟩
  · rw [← hnew.length_content m, hc, hl, Int.sub_zero]
  · rw [hc] at hb
    have hi := (List.getElem?_eq_some_iff.mp hb).1
    obtain ⟨f, hf, hlo, hhi, hg⟩ := hch.getElem?_flatMap hca
      (show (0 : ℤ) ≤ i by omega) (by omega)
    obtain ⟨r, hr, hre, hfr⟩ := h.carried f hf
    have hrl := hfr.start_le
    have hrh := hfr.endPos_le
    refine ⟨r, hr, hre, by omega, by omega, ?_⟩
    rw [← hfr.getElem? (h.wellFormed f hf) hlo hhi, ← hg]
    congr 1

end Deliver

/-! ## Runs of the assemble table -/

section Runs

variable {m : Memory} {R : List Ip4Packet} {t t' : AssembleTable} {p : Ip4Packet}
  {alloc : ReassembleAlloc} {before behind bucket : List Assemble} {a : Assemble}

theorem Ip4Head.Related.symm {h₁ h₂ : Ip4Head} (h : h₁.Related h₂) : h₂.Related h₁ :=
  ⟨h.1.symm, h.2.1.symm, h.2.2.1.symm, h.2.2.2.symm⟩

theorem Ip4Head.Related.trans {h₁ h₂ h₃ : Ip4Head} (h : h₁.Related h₂) (h' : h₂.Related h₃) :
    h₁.Related h₃ :=
  ⟨h.1.trans h'.1, h.2.1.trans h'.2.1, h.2.2.1.trans h'.2.2.1, h.2.2.2.trans h'.2.2.2⟩

theorem Ip4Head.Related.hash_eq {ip ip' : Ip4Head} (h : ip.Related ip') :
    ip4AssembleHash ip = ip4AssembleHash ip' := by
  obtain ⟨h₁, h₂, h₃, h₄⟩ := h
  simp only [ip4AssembleHash, h₁, h₂, h₃, h₄]

theorem sound_ip4CreateAssembleEntry (m : Memory) (R : List Ip4Packet) (ip : Ip4Head) :
    Sound m R (ip4CreateAssembleEntry ip) where
  disjoint := .nil
  wellFormed _ hf := absurd hf not_mem_nil
  carried _ hf := absurd hf not_mem_nil
  curLen_eq := rfl
  head_iff := ⟨fun h => absurd h Bool.false_ne_true, fun ⟨_, hf, _⟩ => absurd hf not_mem_nil⟩

theorem findEntry_spec {ip : Ip4Head} (h : findEntry bucket ip alloc = some (before, a, behind)) :
    a.ident.Related ip ∧ (a ∈ bucket ∨ a = ip4CreateAssembleEntry ip) ∧
      ∀ b ∈ before ++ behind, b ∈ bucket := by
  unfold findEntry at h
  split at h
  · rename_i a' behind' hd
    cases h
    have hs := takeWhile_append_dropWhile
      (p := fun a : Assemble => decide ¬ a.ident.Related ip) (l := bucket)
    have hr := List.head?_dropWhile_not (fun a : Assemble => decide ¬ a.ident.Related ip) bucket
    rw [hd] at hr hs
    refine ⟨by simpa using hr, .inl ?_, fun b hb => ?_⟩
    · rw [← hs]
      simp
    · rw [← hs]
      exact (mem_append.mp hb).elim (mem_append_left _)
        fun hb => mem_append_right _ (mem_cons_of_mem _ hb)
  · split at h
    · cases h
      exact ⟨⟨rfl, rfl, rfl, rfl⟩, .inr rfl, fun b hb => hb⟩
    · cases h

/-- The fragment is not to be cut at its end in an entry of its datagram. -/
def Uncut (t : AssembleTable) (p : Ip4Packet) : Prop :=
  ∀ a ∈ t (ip4AssembleHash p.ip), a.ident.Related p.ip → NoTailCut a.fragments p

instance (t : AssembleTable) (p : Ip4Packet) : Decidable (Uncut t p) :=
  inferInstanceAs (Decidable (∀ a ∈ t (ip4AssembleHash p.ip), _))

/-- **A call keeps every entry of the table sound**, and what it returns comes from a sound entry.
-/
theorem ip4Reassemble_sound {out : Option NewPacket} (ht : ∀ index, ∀ a ∈ t index, Sound m R a)
    (hp : p.WellFormed) (hc : Uncut t p) (h : ip4Reassemble m t p alloc = some (t', out)) :
    (∀ index, ∀ a ∈ t' index, Sound m (R ++ [p]) a) ∧
      ∀ new, out = some new → Sound m (R ++ [p]) new.arg ∧ new.arg.ident.Related p.ip ∧
        deliver m new.arg alloc = some (.removed (some new)) := by
  have hm : ∀ index, ∀ a ∈ t index, Sound m (R ++ [p]) a := fun index a ha => (ht index a ha).mono p
  unfold ip4Reassemble at h
  dsimp only at h
  split at h
  · cases h
    exact ⟨hm, fun new hnew => nomatch hnew⟩
  rename_i before a behind hfi
  obtain ⟨hr, ha, ho⟩ := findEntry_spec hfi
  have ho : ∀ b ∈ before ++ behind, Sound m (R ++ [p]) b := fun b hb => hm _ b (ho b hb)
  have hu : ∀ bucket, (∀ b ∈ bucket, Sound m (R ++ [p]) b) →
      ∀ index, ∀ b ∈ Function.update t (ip4AssembleHash p.ip) bucket index, Sound m (R ++ [p]) b :=
    fun bucket hbu =>
      (Function.forall_update_iff t fun _ bucket => ∀ b ∈ bucket, Sound m (R ++ [p]) b).mpr
        ⟨hbu, fun index _ => hm index⟩
  have hs : Sound m R a ∧ NoTailCut a.fragments p := by
    rcases ha with ha | rfl
    · exact ⟨ht _ a ha, hc a ha hr⟩
    · exact ⟨sound_ip4CreateAssembleEntry m R p.ip, fun f hf => absurd hf not_mem_nil⟩
  split at h
  · cases h
  · rename_i a' hst
    cases h
    obtain ⟨ha', -⟩ := assembleFragment_sound hs.1 hp hr.symm hs.2 hst
    obtain ⟨hbef, hbe⟩ := forall_mem_append.mp ho
    exact ⟨hu _ (forall_mem_append.mpr ⟨hbef, forall_mem_cons.mpr ⟨ha', hbe⟩⟩),
      fun new hnew => nomatch hnew⟩
  · rename_i out' hst
    cases h
    have hout := assembleFragment_sound hs.1 hp hr.symm hs.2 hst
    refine ⟨hu _ ho, fun new hnew => ?_⟩
    obtain ⟨hnew, hid, hd⟩ := hout new hnew
    exact ⟨hnew, hid ▸ hr, hd⟩

/-- The input of a call: the fragment, and the results of the allocations. -/
structure ReassembleInput where
  packet : Ip4Packet
  alloc : ReassembleAlloc

/-- A call of `Ip4Reassemble` on the table. -/
def ReassembleStep (m : Memory) (t : AssembleTable) (i : ReassembleInput) (t' : AssembleTable) :
    Prop :=
  ∃ out, ip4Reassemble m t i.packet i.alloc = some (t', out)

def ip4InitAssembleTable : AssembleTable := fun _ => []

theorem sound_of_run {is : List ReassembleInput} (hf : ∀ i ∈ is, i.packet.WellFormed)
    (hr : Run (fun t i t' => Uncut t i.packet ∧ ReassembleStep m t i t') ip4InitAssembleTable is t) :
    ∀ index, ∀ a ∈ t index, Sound m (is.map ReassembleInput.packet) a := by
  refine Run.history (P := fun is t => ∀ index, ∀ a ∈ t index,
    Sound m (is.map ReassembleInput.packet) a) (fun index a ha => absurd ha not_mem_nil) ?_
    (hr.restrict hf)
  rintro is t i t' ht ⟨hp, hc, out, hs⟩
  rw [map_append]
  exact (ip4Reassemble_sound ht hp hc hs).1

/-- **IPv4 reassembly.** Along every run without cuts at the end, the fragments of an entry are
ordered and disjoint, each holds the received bytes of its part of the datagram, and `CurLen` is the
sum of their lengths; a packet that a further call returns has length `TotalLen`, and each of its
bytes was received for its position. -/
theorem reassembly_of_run {is : List ReassembleInput} (hfrag : ∀ i ∈ is, i.packet.WellFormed)
    (hrun : Run (fun t i t' => Uncut t i.packet ∧ ReassembleStep m t i t') ip4InitAssembleTable is t) :
    (∀ index, ∀ a ∈ t index,
      a.fragments.Pairwise (fun f g => f.info.start < g.info.start) ∧
      Sound m (is.map ReassembleInput.packet) a) ∧
    ∀ (p : Ip4Packet) (alloc : ReassembleAlloc) (t' : AssembleTable) (new : NewPacket),
      p.WellFormed → Uncut t p → ip4Reassemble m t p alloc = some (t', some new) →
        new.packet.nbuf.Valid ∧ (new.packet.nbuf.totalSize : ℤ) = new.arg.totalLen ∧
        ∀ i byte, (new.packet.nbuf.content m)[i]? = some byte →
          Received m (is.map ReassembleInput.packet ++ [p]) p.ip i byte := by
  have hs := sound_of_run hfrag hrun
  refine ⟨fun index a ha => ⟨?_, hs index a ha⟩, fun p alloc t' new hp hc hst => ?_⟩
  · refine (hs index a ha).disjoint.imp_of_mem fun {f g} hf _ hle => ?_
    have := ((hs index a ha).wellFormed f hf).start_lt
    omega
  · obtain ⟨har, hrel, hd⟩ := (ip4Reassemble_sound hs hp hc hst).2 new rfl
    obtain ⟨-, hv, ht, hb⟩ := deliver_carried har hd
    refine ⟨hv, ht, fun i byte hby => ?_⟩
    obtain ⟨r, hr, hre, hin⟩ := hb i byte hby
    refine ⟨r, hr, ?_, hin⟩
    exact ⟨hre.1.trans hrel.1, hre.2.1.trans hrel.2.1, hre.2.2.1.trans hrel.2.2.1,
      hre.2.2.2.trans hrel.2.2.2⟩

end Runs

/-! ## Fragments in any order -/

section Order

variable {m : Memory} {ident : Ip4Head} {total : ℤ} {R fs todo rest : List Ip4Packet}
  {a a' : Assemble} {p q : Ip4Packet} {alloc : ReassembleAlloc} {t t' : AssembleTable}

/-- **A datagram in fragments**, in the order of their positions. -/
structure Datagram (ident : Ip4Head) (fs : List Ip4Packet) (total : ℤ) : Prop where
  wellFormed : ∀ f ∈ fs, f.WellFormed
  related : ∀ f ∈ fs, f.ip.Related ident
  chained : Chained (fun f : Ip4Packet => f.info.start) (fun f => f.info.endPos) 0 fs total
  last_iff : ∀ f ∈ fs, ip4LastFragment f.ip.fragment = true ↔ f.info.endPos = total
  ne_nil : fs ≠ []
  blocks : (blocksIn (fs.map Ip4Packet.nbuf)).length < 2 ^ 32

/-- What the entry of a datagram is while the fragments `todo` are still to come. -/
structure Pending (m : Memory) (ident : Ip4Head) (fs : List Ip4Packet) (total : ℤ)
    (todo : List Ip4Packet) (a : Assemble) : Prop where
  sound : ∃ R, Sound m R a
  ident : a.ident.Related ident
  perm : a.fragments ++ todo ~ fs
  totalLen : a.totalLen = 0 ∨ a.totalLen = total
  last : ∀ f ∈ a.fragments, f.info.endPos = total → a.totalLen = total

theorem lengthsOf_pos (h : ∀ f ∈ fs, f.WellFormed) (hne : fs ≠ []) : 0 < lengthsOf info fs := by
  induction fs with
  | nil => exact absurd rfl hne
  | cons f fs ih =>
    obtain ⟨hf, hfs⟩ := forall_mem_cons.mp h
    have hst := hf.start_lt
    have hle := hf.length_eq
    rw [lengthsOf_cons]
    by_cases hnil : fs = []
    · subst hnil
      simp
      omega
    · have := ih hfs hnil
      omega

theorem Datagram.ordered (hd : Datagram ident fs total) :
    fs.Pairwise (fun f g => f.info.endPos ≤ g.info.start) ∧ lengthsOf info fs = total := by
  obtain ⟨-, hp, hs⟩ := hd.chained.ordered fun f hf => (hd.wellFormed f hf).start_lt.le
  refine ⟨hp, ?_⟩
  rw [lengthsOf, map_congr_left fun f hf => (hd.wellFormed f hf).length_eq, hs, Int.sub_zero]

/-- A fragment apart from those that are there is inserted as it is. -/
theorem assembleFragment_apart (alloc : ReassembleAlloc) (h : Sound m R a) (hp : p.WellFormed)
    (hap : ∀ f ∈ a.fragments, f.info.endPos ≤ p.info.start ∨ p.info.endPos ≤ f.info.start) :
    ∃ before rest, a.fragments = before ++ rest ∧
      (∀ f ∈ before, f.info.endPos ≤ p.info.start) ∧ (∀ f ∈ rest, p.info.endPos ≤ f.info.start) ∧
      ∃ a', updateInfo { a with fragments := before ++ p :: rest } p = some a' ∧
        assembleFragment m a p alloc = deliver m a' alloc := by
  obtain ⟨hsp, hbe, haf⟩ := h.split p
  have hb : ∀ f ∈ a.fragments.takeWhile (notBehind info p), f.info.endPos ≤ p.info.start := by
    intro f hf
    have hle := hbe f hf
    have := hap f hle.1
    have := hp.start_lt
    omega
  have hr : ∀ f ∈ a.fragments.dropWhile (notBehind info p), p.info.endPos ≤ f.info.start := by
    intro f hf
    have hlt := haf f hf
    have := hap f hlt.1
    have := (h.wellFormed f hlt.1).start_lt
    omega
  refine ⟨_, _, hsp, hb, hr, ?_⟩
  have hc : cutByPrev p (a.fragments.takeWhile (notBehind info p)) = some (some p) := by
    unfold cutByPrev
    split
    · rfl
    · rename_i prev hl
      have := hb prev (mem_of_getLast? hl)
      rw [if_neg (by omega)]
  have ho : removeOverlapped p a.curLen (a.fragments.dropWhile (notBehind info p)) =
      some (a.curLen, a.fragments.dropWhile (notBehind info p), some p) := by
    cases hrest : a.fragments.dropWhile (notBehind info p) with
    | nil => rfl
    | cons f rest =>
      have hf : f ∈ a.fragments.dropWhile (notBehind info p) := by simp [hrest]
      have := hr f hf
      have := (h.wellFormed f (haf f hf).1).start_lt
      rw [removeOverlapped, if_neg (by omega), if_neg (by omega)]
  -- the head is that of a fragment at 0, which a second one would overlap
  have hz : ¬ (p.info.start = 0 ∧ a.head.isSome) := by
    rintro ⟨hz, hs⟩
    obtain ⟨f, hf, hfz⟩ := h.head_iff.mp hs
    have := hap f hf
    have := hp.start_lt
    have := (h.wellFormed f hf).start_lt
    omega
  unfold updateInfo
  rw [if_neg hz]
  refine ⟨_, rfl, ?_⟩
  simp only [assembleFragment, hc, ho, updateInfo, if_neg hz, bind_some]

theorem Pending.apart (hd : Datagram ident fs total) (h : Pending m ident fs total (p :: todo) a) :
    p ∈ fs ∧ ∀ f ∈ a.fragments, f.info.endPos ≤ p.info.start ∨ p.info.endPos ≤ f.info.start := by
  refine ⟨h.perm.mem_iff.mp (by simp), fun f hf => ?_⟩
  have hap : fs.Pairwise fun f g => f.info.endPos ≤ g.info.start ∨ g.info.endPos ≤ f.info.start :=
    hd.ordered.1.imp .inl
  have := (h.perm.pairwise_iff fun h => h.symm).mpr hap
  exact (pairwise_append.mp this).2.2 f hf p mem_cons_self

theorem Pending.step (alloc : ReassembleAlloc) (hd : Datagram ident fs total)
    (h : Pending m ident fs total (p :: todo) a) :
    ∃ a', assembleFragment m a p alloc = deliver m a' alloc ∧ Pending m ident fs total todo a' := by
  obtain ⟨R, hs⟩ := h.sound
  obtain ⟨hpm, hap⟩ := h.apart hd
  have hp := hd.wellFormed p hpm
  obtain ⟨before, rest, hsp, hb, hr, a', hu, he⟩ := assembleFragment_apart alloc hs hp hap
  have hrel := (hd.related p hpm).trans h.ident.symm
  obtain ⟨hso, hid⟩ := updateInfo_sound hs (show _ = before ++ ([] ++ rest) from hsp) hp hrel
    (.refl hp m) hb (by simp) hr (by simpa using hu)
  have hf : a'.fragments = before ++ p :: rest ∧ a'.totalLen =
      if ip4LastFragment p.ip.fragment ∧ a.totalLen = 0 then p.info.endPos else a.totalLen := by
    unfold updateInfo at hu
    split at hu
    · cases hu
    · obtain rfl := some.inj hu
      exact ⟨rfl, rfl⟩
  have hlast := hd.last_iff p hpm
  refine ⟨a', he, ⟨_, hso⟩, hid ▸ h.ident, ?_, ?_, fun f hf' => ?_⟩
  · refine Perm.trans ?_ h.perm
    rw [hf.1, hsp, append_assoc, cons_append, append_assoc]
    exact (perm_append_left_iff _).mpr perm_middle.symm
  · grind [h.totalLen]
  · have := h.last f
    have := h.totalLen
    grind

theorem Pending.deliver_kept (hd : Datagram ident fs total) (h : Pending m ident fs total todo a)
    (hne : todo ≠ []) : deliver m a alloc = some (.kept a) := by
  obtain ⟨R, hs⟩ := h.sound
  have hl : lengthsOf info (a.fragments ++ todo) = lengthsOf info fs := (h.perm.map _).sum_eq
  have hpos := lengthsOf_pos (fun f hf => hd.wellFormed f (h.perm.mem_iff.mp (by simp [hf]))) hne
  have hc : a.curLen = lengthsOf info a.fragments := hs.curLen_eq
  have := hd.ordered.2
  have := h.totalLen
  rw [lengthsOf_append] at hl
  rw [deliver, if_neg (by omega)]

theorem Pending.deliver_removed (hd : Datagram ident fs total) (h : Pending m ident fs total [] a) :
    ∃ new, deliver m a ⟨true, true, true⟩ = some (.removed (some new)) ∧
      new.packet.nbuf.content m = fs.flatMap fun f => f.nbuf.content m := by
  obtain ⟨R, hs⟩ := h.sound
  have hperm := h.perm
  rw [append_nil] at hperm
  -- both lists are ordered by position
  have hfs : a.fragments = fs := by
    refine Perm.eq_of_pairwise (fun f g hf hg h₁ h₂ => ?_) hs.disjoint hd.ordered.1 hperm
    have := (hd.wellFormed g hg).start_lt
    have := (hs.wellFormed f hf).start_lt
    omega
  obtain ⟨last, hlast⟩ := ne_none_iff_exists'.mp (mt getLast?_eq_none_iff.mp hd.ne_nil)
  have hend : last.info.endPos = total := hd.chained.hi_getLast? hlast
  have htot := h.last last (hfs ▸ mem_of_getLast? hlast) hend
  have hpos := lengthsOf_pos hd.wellFormed hd.ne_nil
  have hl := hd.ordered.2
  have hcur : a.curLen = total := by
    rw [hs.curLen_eq, hfs]
    exact hl
  obtain ⟨f, hf, hz⟩ : ∃ f ∈ fs, f.info.start = 0 := by
    obtain ⟨f, fs', rfl⟩ := exists_cons_of_ne_nil hd.ne_nil
    exact ⟨f, mem_cons_self, hd.chained.1⟩
  obtain ⟨⟨ip, info⟩, hh⟩ := isSome_iff_exists.mp (hs.head_iff.mpr ⟨f, hfs ▸ hf, hz⟩)
  have hv : ∀ nbuf ∈ fs.map Ip4Packet.nbuf, nbuf.Valid := by
    intro nbuf hnb
    obtain ⟨f, hf, rfl⟩ := mem_map.mp hnb
    exact (hd.wellFormed f hf).valid
  have htl := totalsOf_map hd.wellFormed
  have hle : last.info.endPos ≤ 65535 := (hd.wellFormed last (mem_of_getLast? hlast)).endPos_le
  obtain ⟨nbuf, m', hj, -⟩ := @netbufFromBufList_spec 0 0 _ ⟨none, true⟩ m hv (by omega) (by omega)
    hd.blocks (by omega) rfl (by simp [pulledLen])
  refine ⟨⟨⟨nbuf, ip, info⟩, a⟩, ?_, ?_⟩
  · rw [deliver, if_pos (by omega), hfs, hlast]
    simp only [hj, hh]
    rw [if_neg (by omega)]
  · rw [(netbufFromBufList_whole hv (by omega) hj).2, contentsOf, flatMap_map]

/-- Where the entry of a fragment is. -/
theorem findEntry_cases {bucket earlier behind : List Assemble} {ip : Ip4Head}
    (h : findEntry bucket ip alloc = some (earlier, a, behind)) :
    a.ident.Related ip ∧ (∀ b ∈ earlier, ¬ b.ident.Related ip) ∧
      (bucket = earlier ++ a :: behind ∨
        a = ip4CreateAssembleEntry ip ∧ earlier = [] ∧ behind = bucket ∧
          ∀ b ∈ bucket, ¬ b.ident.Related ip) := by
  have hs := takeWhile_append_dropWhile
    (p := fun a : Assemble => decide ¬ a.ident.Related ip) (l := bucket)
  refine ⟨(findEntry_spec h).1, ?_⟩
  unfold findEntry at h
  split at h
  · rename_i hd
    cases h
    exact ⟨fun b hb => by simpa using mem_takeWhile_imp hb, .inl (by rw [← hd, hs])⟩
  · rename_i hd
    split at h
    · cases h
      refine ⟨by simp, .inr ⟨rfl, rfl, rfl, fun b hb => ?_⟩⟩
      simpa using dropWhile_eq_nil_iff.mp hd b hb
    · cases h

/-- The entries of a datagram. -/
def entriesOf (ident : Ip4Head) (t : AssembleTable) : List Assemble :=
  (t (ip4AssembleHash ident)).filter (·.ident.Related ident)

/-- The table when the fragments `rest` of a datagram are still to come. -/
def Awaits (m : Memory) (ident : Ip4Head) (fs : List Ip4Packet) (total : ℤ) (t : AssembleTable)
    (rest : List Ip4Packet) : Prop :=
  entriesOf ident t = [] ∧ rest ~ fs ∨
    ∃ a, entriesOf ident t = [a] ∧ Pending m ident fs total rest a

theorem assembleFragment_ident (h : assembleFragment m a p alloc = some (.kept a')) :
    a'.ident = a.ident := by
  have hk {a₁} (hd : deliver m a₁ alloc = some (.kept a')) : a₁ = a' := by
    unfold deliver at hd
    repeat' split at hd
    all_goals cases hd
    rfl
  unfold assembleFragment at h
  dsimp only at h
  split at h
  · cases h
  · cases h
    rfl
  split at h
  · cases h
  · cases h
    rfl
  obtain ⟨a₁, hu, hd⟩ := bind_eq_some_iff.mp h
  obtain rfl := hk hd
  unfold updateInfo at hu
  split at hu
  · cases hu
  · cases hu
    rfl

/-- What a call leaves of a bucket. -/
theorem ip4Reassemble_cases {out : Option NewPacket}
    (h : ip4Reassemble m t p alloc = some (t', out)) :
    t' = t ∨ ∃ earlier a behind kept,
      findEntry (t (ip4AssembleHash p.ip)) p.ip alloc = some (earlier, a, behind) ∧
      (∀ b ∈ kept, b.ident = a.ident) ∧
      t' = Function.update t (ip4AssembleHash p.ip) (earlier ++ kept ++ behind) := by
  unfold ip4Reassemble at h
  dsimp only at h
  split at h
  · cases h
    exact .inl rfl
  rename_i earlier a behind hf
  split at h
  · cases h
  · rename_i a' ha
    cases h
    refine .inr ⟨earlier, a, behind, [a'], hf, ?_, by simp⟩
    simpa using assembleFragment_ident ha
  · cases h
    exact .inr ⟨earlier, a, behind, [], hf, by simp, by simp⟩

/-- A fragment of another datagram, which may be in the same bucket. -/
theorem Awaits.other {out : Option NewPacket} (h : Awaits m ident fs total t rest)
    (hq : ¬ q.ip.Related ident) (hs : ip4Reassemble m t q alloc = some (t', out)) :
    Awaits m ident fs total t' rest := by
  have he : entriesOf ident t' = entriesOf ident t := by
    rcases ip4Reassemble_cases hs with rfl | ⟨earlier, a, behind, kept, hf, hk, rfl⟩
    · rfl
    obtain ⟨hr, -, hb⟩ := findEntry_cases hf
    have ha : ¬ a.ident.Related ident := fun ha => hq (hr.symm.trans ha)
    have hkn : kept.filter (·.ident.Related ident) = [] := by
      simp only [filter_eq_nil_iff]
      intro b hb
      simpa [hk b hb] using ha
    unfold entriesOf
    by_cases hh : ip4AssembleHash ident = ip4AssembleHash q.ip
    · rw [hh, Function.update_self]
      rcases hb with hb | ⟨-, rfl, rfl, -⟩
      · simp [hb, hkn, ha]
      · simp [hkn]
    · rw [Function.update_of_ne hh]
  unfold Awaits
  rwa [he]

/-- The next fragment of the datagram. -/
theorem Awaits.next (hd : Datagram ident fs total) (h : Awaits m ident fs total t (p :: todo)) :
    ∃ t' out, ip4Reassemble m t p ⟨true, true, true⟩ = some (t', out) ∧
      (todo ≠ [] → out = none ∧ Awaits m ident fs total t' todo) ∧
      (todo = [] → ∃ new, out = some new ∧
        new.packet.nbuf.content m = fs.flatMap fun f => f.nbuf.content m) := by
  have hp : p ∈ fs := by
    rcases h with ⟨-, hr⟩ | ⟨a, -, ha⟩
    · exact hr.mem_iff.mp mem_cons_self
    · exact (ha.apart hd).1
  have hrel := hd.related p hp
  obtain ⟨⟨earlier, a, behind⟩, hf⟩ : ∃ r,
      findEntry (t (ip4AssembleHash ident)) p.ip ⟨true, true, true⟩ = some r := by
    unfold findEntry
    split
    · exact ⟨_, rfl⟩
    · exact ⟨_, rfl⟩
  obtain ⟨hid, hea, hb⟩ := findEntry_cases hf
  have hnone {l : List Assemble} (hl : ∀ b ∈ l, ¬ b.ident.Related p.ip) :
      l.filter (·.ident.Related ident) = [] := by
    simp only [filter_eq_nil_iff, decide_eq_true_eq]
    exact fun b hb hr => hl b hb (hr.trans hrel.symm)
  -- the entry found is the only one of the datagram, or the first
  obtain ⟨hpn, hbe⟩ : Pending m ident fs total (p :: todo) a ∧
      behind.filter (·.ident.Related ident) = [] := by
    rcases hb with hb | ⟨rfl, -, rfl, hb⟩
    · have he : entriesOf ident t = a :: behind.filter (·.ident.Related ident) := by
        simp [entriesOf, hb, hnone hea, hid.trans hrel]
      rcases h with ⟨hn, -⟩ | ⟨a₀, hs, ha⟩
      · cases he.symm.trans hn
      · obtain ⟨rfl, hbe⟩ := cons.inj (hs.symm.trans he)
        exact ⟨ha, hbe.symm⟩
    · refine ⟨?_, hnone hb⟩
      rcases h with ⟨-, hr⟩ | ⟨a₀, hs, -⟩
      · exact ⟨⟨[], sound_ip4CreateAssembleEntry m [] p.ip⟩, hrel, hr, .inl rfl,
          fun f hf => absurd hf not_mem_nil⟩
      · cases (hnone hb).symm.trans hs
  obtain ⟨a', he, h'⟩ := hpn.step ⟨true, true, true⟩ hd
  by_cases hnil : todo = []
  · subst hnil
    obtain ⟨new, hn, hc⟩ := h'.deliver_removed hd
    refine ⟨Function.update t (ip4AssembleHash ident) (earlier ++ behind), some new, ?_,
      fun hne => absurd rfl hne, fun _ => ⟨new, rfl, hc⟩⟩
    simp only [ip4Reassemble, hrel.hash_eq, hf, he, hn]
  · refine ⟨Function.update t (ip4AssembleHash ident) (earlier ++ a' :: behind), none, ?_,
      fun _ => ⟨rfl, .inr ⟨a', ?_, h'⟩⟩, fun h => absurd h hnil⟩
    · simp only [ip4Reassemble, hrel.hash_eq, hf, he, h'.deliver_kept hd hnil]
    · simp [entriesOf, hnone hea, hbe, h'.ident]

/-- The fragments of a datagram, in the order of their arrival. -/
def arrived (ident : Ip4Head) (is : List ReassembleInput) : List Ip4Packet :=
  (is.map ReassembleInput.packet).filter (·.ip.Related ident)

/-- A call in which, for a fragment of the datagram, the allocations succeed. -/
def SupplyStep (m : Memory) (ident : Ip4Head) (t : AssembleTable) (i : ReassembleInput)
    (t' : AssembleTable) : Prop :=
  (i.packet.ip.Related ident → i.alloc = ⟨true, true, true⟩) ∧ ReassembleStep m t i t'

theorem awaits_of_run {is : List ReassembleInput} (hd : Datagram ident fs total)
    (ht : entriesOf ident t = []) (hrun : Run (SupplyStep m ident) t is t') :
    ∀ rest, rest ≠ [] → arrived ident is ++ rest ~ fs → Awaits m ident fs total t' rest := by
  refine hrun.history (P := fun is t => ∀ rest, rest ≠ [] → arrived ident is ++ rest ~ fs →
    Awaits m ident fs total t rest) (fun rest _ hr => .inl ⟨ht, hr⟩) ?_
  rintro is t ⟨q, alloc⟩ t' hs ⟨hal, out, hq⟩ rest hne hr
  by_cases hrel : q.ip.Related ident
  · obtain rfl := hal hrel
    have hr' : arrived ident is ++ q :: rest ~ fs := by
      simpa [arrived, hrel] using hr
    obtain ⟨t₁, out₁, he, hk, -⟩ := (hs (q :: rest) (cons_ne_nil _ _) hr').next hd
    obtain ⟨rfl, rfl⟩ := Prod.mk.inj (some.inj (he.symm.trans hq))
    exact (hk hne).2
  · refine (hs rest hne ?_).other hrel hq
    simpa [arrived, hrel] using hr

/-- **Fragments are joined in whatever order they arrive**, among calls for fragments of other
datagrams: the call for the last fragment of a datagram to arrive, and none before it, returns a
packet, and its content is that of the fragments in the order of their positions. -/
theorem reassembled_in_any_order {is : List ReassembleInput} (hd : Datagram ident fs total)
    (ht : entriesOf ident t = []) (hrun : Run (SupplyStep m ident) t is t')
    (hgot : arrived ident is ++ p :: todo ~ fs) :
    ∃ t'' out, ip4Reassemble m t' p ⟨true, true, true⟩ = some (t'', out) ∧
      (todo ≠ [] → out = none) ∧
      (todo = [] → ∃ new, out = some new ∧
        new.packet.nbuf.content m = fs.flatMap fun f => f.nbuf.content m) := by
  have ha := awaits_of_run hd ht hrun (p :: todo) (cons_ne_nil _ _) hgot
  obtain ⟨t'', out, he, hk, hl⟩ := ha.next hd
  exact ⟨t'', out, he, fun hne => (hk hne).1, hl⟩

end Order

section Samples

/-- A fragment of 16 bytes that starts at `start`; the last one of the datagram if `last`. -/
private def sampleFragment (start : ℤ) (last : Bool) : Ip4Packet :=
  { nbuf := ⟨[netbufSetBlockOp 0x1000 16], 16⟩
    ip := ⟨1, 2, 3, 17, if last then 0 else 0x2000⟩
    info := ⟨start, start + 16, 16⟩ }

private theorem wellFormed_sampleFragment {start : ℤ} (last : Bool) (h : 0 ≤ start)
    (hle : start + 16 ≤ 65535) : (sampleFragment start last).WellFormed where
  nonneg := h
  start_lt := show start < start + 16 by omega
  endPos_le := hle
  length_eq := show (16 : ℤ) = start + 16 - start by omega
  valid := ⟨rfl, show 16 < 2 ^ 32 by omega⟩
  totalSize_eq := rfl

private def sampleAlloc : ReassembleAlloc := ⟨true, true, true⟩

/-- Two fragments that follow each other are joined. -/
theorem reassembly_of_run_joined :
    ∃ (t t' : AssembleTable) (new : NewPacket),
      ip4Reassemble (fun _ => 0) t (sampleFragment 16 true) sampleAlloc = some (t', some new) ∧
      new.packet.nbuf.totalSize = 32 ∧ new.arg.totalLen = 32 := by
  have he : ((ip4Reassemble (fun _ => 0) ip4InitAssembleTable (sampleFragment 0 false)
      sampleAlloc).bind fun r =>
        (ip4Reassemble (fun _ => 0) r.1 (sampleFragment 16 true) sampleAlloc).map fun q =>
          (decide (Uncut r.1 (sampleFragment 16 true)),
            q.2.map fun new => new.packet.nbuf.totalSize)) = some (true, some 32) := by
    decide +kernel
  obtain ⟨⟨t, out⟩, hf, hse⟩ := bind_eq_some_iff.mp he
  obtain ⟨⟨t', out'⟩, hs, hp⟩ := map_eq_some_iff.mp hse
  obtain ⟨hu, hout⟩ := Prod.mk.inj hp
  obtain ⟨new, rfl, hsi⟩ := map_eq_some_iff.mp hout
  obtain ⟨-, hnew⟩ := reassembly_of_run
    (forall_mem_singleton.mpr
      (show (sampleFragment 0 false).WellFormed from
        wellFormed_sampleFragment false (by omega) (by omega)))
    (.cons (i := ⟨sampleFragment 0 false, sampleAlloc⟩)
      ⟨fun a ha => absurd ha not_mem_nil, out, hf⟩ (.nil t))
  obtain ⟨-, ht, -⟩ := hnew _ _ _ _ (wellFormed_sampleFragment true (by omega) (by omega))
    (of_decide_eq_true hu) hs
  exact ⟨t, t', new, hs, hsi, by rw [← ht, hsi]; rfl⟩

/-- The second of two fragments arrives first. -/
theorem reassembled_in_any_order_swapped :
    ∃ (t t' : AssembleTable) (new : NewPacket),
      ip4Reassemble (fun _ => 0) t (sampleFragment 0 false) sampleAlloc = some (t', some new) ∧
      (new.packet.nbuf.content fun _ => 0).length = 32 := by
  have hd : Datagram (sampleFragment 0 false).ip
      [sampleFragment 0 false, sampleFragment 16 true] 32 :=
    { wellFormed := forall_mem_cons.mpr ⟨wellFormed_sampleFragment false (by omega) (by omega),
        forall_mem_singleton.mpr (wellFormed_sampleFragment true (by omega) (by omega))⟩
      related := by decide
      chained := ⟨rfl, rfl, rfl⟩
      last_iff := by decide
      ne_nil := by decide
      blocks := by decide }
  have hs : (ip4Reassemble (fun _ => 0) ip4InitAssembleTable (sampleFragment 16 true)
      sampleAlloc).isSome = true := by
    decide +kernel
  obtain ⟨⟨t, out⟩, hf⟩ := isSome_iff_exists.mp hs
  have hr : Run (SupplyStep (fun _ => 0) (sampleFragment 0 false).ip) ip4InitAssembleTable
      [⟨sampleFragment 16 true, sampleAlloc⟩] t :=
    .cons ⟨fun _ => rfl, out, hf⟩ (.nil t)
  obtain ⟨t', out', he, -, hn⟩ :=
    @reassembled_in_any_order _ _ _ _ [] (sampleFragment 0 false) _ _ _ hd rfl hr (by decide)
  obtain ⟨new, rfl, hc⟩ := hn rfl
  exact ⟨t, t', new, he, by rw [hc]; rfl⟩

/-- A fragment that ends inside a stored one: what is kept of it is an empty buffer, with a `Length`
of 24 for 8 positions. -/
theorem not_sound_of_tail_cut :
    ∃ (is : List ReassembleInput) (t : AssembleTable),
      (∀ i ∈ is, i.packet.WellFormed) ∧
      Run (ReassembleStep fun _ => 0) ip4InitAssembleTable is t ∧
      ∃ index, ∃ a ∈ t index, ∃ f ∈ a.fragments,
        f.info = ⟨8, 16, 24⟩ ∧ f.nbuf.totalSize = 0 ∧
        ¬ Sound (fun _ => 0) (is.map ReassembleInput.packet) a := by
  have he : ((ip4Reassemble (fun _ => 0) ip4InitAssembleTable (sampleFragment 16 false)
      sampleAlloc).bind fun r =>
        (ip4Reassemble (fun _ => 0) r.1 (sampleFragment 8 false) sampleAlloc).map fun q =>
          decide (∃ a ∈ q.1 (ip4AssembleHash (sampleFragment 8 false).ip), ∃ f ∈ a.fragments,
            f.info = ⟨8, 16, 24⟩ ∧ f.nbuf.totalSize = 0)) = some true := by
    decide +kernel
  obtain ⟨⟨t, out⟩, hfi, hse⟩ := bind_eq_some_iff.mp he
  obtain ⟨⟨t', out'⟩, hst, hfo⟩ := map_eq_some_iff.mp hse
  obtain ⟨a, ha, f, hf, hin, hs⟩ := of_decide_eq_true hfo
  refine ⟨[⟨sampleFragment 16 false, sampleAlloc⟩, ⟨sampleFragment 8 false, sampleAlloc⟩], t', ?_,
    .cons ⟨out, hfi⟩ (.cons ⟨out', hst⟩ (.nil t')), _, a, ha, f, hf, hin, hs, ?_⟩
  · exact forall_mem_cons.mpr ⟨wellFormed_sampleFragment false (by omega) (by omega),
      forall_mem_singleton.mpr (wellFormed_sampleFragment false (by omega) (by omega))⟩
  · intro hso
    have ht := (hso.wellFormed f hf).totalSize_eq
    rw [hs, hin] at ht
    exact absurd ht (by decide)

end Samples

end Edk2.Net

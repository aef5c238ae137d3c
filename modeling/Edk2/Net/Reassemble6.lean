import Edk2.Lib.Run
import Edk2.Lib.Tiling
import Edk2.Net.Fragment
import Mathlib.Algebra.Order.Group.Multiset
import Mathlib.Tactic.Abel
import Mathlib.Tactic.Tauto

/-!
# IPv6 reassembly

`Ip6Reassemble` keeps the fragments of a datagram in a list, ordered by where they start. A new
fragment cuts the fragment before it, removes the fragments it covers, and is cut by the one behind
them; when the fragments add up to the length of the datagram, the headers are taken off and the
payloads are joined behind the unfragmentable part of the first fragment.

The lists are not always right. `Ip6TrimPacket` cuts off all of a packet where it is to cut its end,
the exits for errors behind the insertion free a packet that stays in the list, those behind
`Ip6FreeAssembleEntry` free it a second time, and all headers are taken off with the length of the
first one. `Calm` says that a call comes to none of this.

A packet is given by its bytes, which are what the functions for net buffers work on, and by a name
for its `NET_BUF`; the names of the packets that were freed are kept in a log. Positions and lengths
are integers; they stay far below the bounds of their types. A result `none` stands for a failed
`ASSERT`.

## Main results

* `assembleFragment_calm`: what such a call does to its entry
* `deliver_carried`: a packet that is returned holds the bytes that were received
* `reassembly6_of_run`: both, and what was freed, for every run
-/

namespace Edk2.Net.Ip6

open List Option
open Function (update update_self update_of_ne update_idem)

/-- What identifies a datagram: `DestinationAddress`, `SourceAddress` and the identification. The
first four bytes of an address are the low ones. -/
structure Key where
  dst : BitVec 128
  src : BitVec 128
  id : BitVec 32
  deriving DecidableEq

/-- `IP6_CLIP_INFO`: the part of the datagram that a packet holds, and what its headers tell. -/
structure ClipInfo extends Net.ClipInfo where
  headLen : ℕ
  nextHeader : UInt8
  lastFrag : Bool
  formerNextHeader : ℕ
  deriving DecidableEq

/-- A packet: the name of its `NET_BUF`, its bytes, and the clip info in `ProtoData`. -/
structure Packet where
  name : ℕ
  content : List UInt8
  key : Key
  info : ClipInfo
  deriving DecidableEq

abbrev clip (p : Packet) : Net.ClipInfo := p.info.toClipInfo

def ip6AssembleHash (k : Key) : ℕ := (k.dst.setWidth 32 + k.src.setWidth 32 + k.id).toNat % 127

/-- `IP6_ASSEMBLE_ENTRY`. `Head` and `Info` are set together, and only `Info->HeadLen` is read. Of
the backup of the first fragment only its presence matters. -/
structure Assemble where
  key : Key
  totalLen : ℤ
  curLen : ℤ
  fragments : List Packet
  headLen : Option ℕ
  packet : Bool
  deriving DecidableEq

def ip6CreateAssembleEntry (k : Key) : Assemble := ⟨k, 0, 0, [], none, false⟩

/-- `IP6_ASSEMBLE_TABLE`, and the packets that were freed so far. -/
structure AssembleState where
  table : ℕ → List Assemble
  freed : List ℕ

/-- The packet that is returned, with the entry that `Ip6OnFreeFragments` gets as its argument. -/
structure NewPacket where
  content : List UInt8
  arg : Assemble

def names (fs : List Packet) : List ℕ := fs.map Packet.name

/-! ## Trimming -/

/-- The first branch of `Ip6TrimPacket`. -/
def trimHead (p : Packet) (start : ℤ) : Packet :=
  let len := start - p.info.start
  { p with
    content := p.content.drop (toUInt32 len)
    info := { p.info with start := start, length := p.info.length - len } }

/-- The second branch: `Len` is `End - Info->End`, which is negative. -/
def trimTail (p : Packet) (endPos : ℤ) : Packet :=
  let len := endPos - p.info.endPos
  { p with
    content := p.content.take (p.content.length - toUInt32 len)
    info := { p.info with endPos := endPos, length := p.info.length - len } }

def ip6TrimPacket (p : Packet) (start endPos : ℤ) : Option Packet :=
  if p.info.start + p.info.length ≠ p.info.endPos then none
  else if ¬ (p.info.start < endPos ∧ start < p.info.endPos) then none
  else
    let p := if p.info.start < start then trimHead p start else p
    some (if endPos < p.info.endPos then trimTail p endPos else p)

/-! ## Reassembly -/

/-- The check against the previous fragment, which is cut; the inner `none` is a packet that is
freed. -/
def cutPrev (p : Packet) (before : List Packet) : Option (Option (List Packet)) :=
  match before.getLast? with
  | none => some (some before)
  | some prev =>
    if p.info.start < prev.info.endPos then
      if p.info.endPos ≤ prev.info.endPos then some none
      else
        (ip6TrimPacket prev prev.info.start p.info.start).map fun prev =>
          some (before.dropLast ++ [prev])
    else some (some before)

/-- What the loop over the fragments behind the insertion point leaves: `CurLen`, the fragments that
are removed and freed, those that are left, and the packet unless it is dropped. -/
structure Overlapped where
  curLen : ℤ
  gone : List Packet
  rest : List Packet
  packet : Option Packet

/-- The loop over the fragments behind the insertion point. -/
def removeOverlapped (p : Packet) : ℤ → List Packet → Option Overlapped
  | curLen, [] => some ⟨curLen, [], [], some p⟩
  | curLen, f :: fs =>
    if f.info.endPos ≤ p.info.endPos then
      (removeOverlapped p (curLen - f.info.length) fs).map fun r => { r with gone := f :: r.gone }
    else if f.info.start < p.info.endPos then
      if p.info.start = f.info.start then some ⟨curLen, [], f :: fs, none⟩
      else (ip6TrimPacket p p.info.start f.info.start).map fun p => ⟨curLen, [], f :: fs, some p⟩
    else some ⟨curLen, [], f :: fs, some p⟩

def unFragmentLen (p : Packet) : ℕ := (p.info.headLen + (2 ^ 16 - 40)) % 2 ^ 16

/-- The offset of the byte that names the header behind the unfragmentable part: `NextHeader` of the
IPv6 header, or the one that `FormerNextHeader` tells. -/
def nextHeaderOffset (p : Packet) : ℕ :=
  if unFragmentLen p = 0 then 6 else p.info.formerNextHeader + 40

/-- The first fragment with the header behind the fragment header named there. -/
def adjusted (p : Packet) : Packet :=
  { p with content := p.content.set (nextHeaderOffset p) p.info.nextHeader }

/-- The unfragmentable part of the first fragment is adjusted. The inner `none` is a byte that is
not there; without extension headers the byte has to name the fragment header. -/
def adjustHeader (p : Packet) : Option (Option Packet) :=
  if unFragmentLen p = 0 then
    if p.content[6]? = some 44 then some (some (adjusted p)) else none
  else if nextHeaderOffset p < p.content.length then some (some (adjusted p))
  else some none

/-- The results of the allocations of a call: the assemble entry, the backup of the first fragment,
the buffer for the unfragmentable part, and the buffer of `NetbufFromBufList`. -/
structure Alloc where
  entry : Bool
  duplicate : Bool
  fragment : Bool
  list : Bool

/-- `TotalLen` after a packet was enqueued. -/
def updateTotal (a : Assemble) (p : Packet) : ℤ :=
  if p.info.lastFrag ∧ a.totalLen = 0 then p.info.endPos else a.totalLen

/-- The update of the assemble info by a packet that was inserted between `before` and `rest`. On
the left is an exit for errors: the packet is freed then, and stays in the list. -/
def updateInfo (a : Assemble) (before rest : List Packet) (p : Packet) (alloc : Alloc) :
    Option (Assemble ⊕ Assemble) :=
  let a := { a with curLen := a.curLen + p.info.length, fragments := before ++ p :: rest }
  if p.info.start = 0 then
    if a.headLen.isSome ∨ a.packet then some (.inl a)
    else if ¬ alloc.duplicate then some (.inl a)
    else
      (adjustHeader p).map fun adjusted =>
        match adjusted with
        | none => .inl { a with packet := true }
        | some p' =>
          .inr { a with
            packet := true
            headLen := some p.info.headLen
            fragments := before ++ p' :: rest
            totalLen := updateTotal a p }
  else some (.inr { a with totalLen := updateTotal a p })

/-- What becomes of an entry: it stays, it is freed, or its packets are returned. -/
inductive Outcome
  | kept (a : Assemble)
  | dropped
  | delivered (new : NewPacket)

/-- The bytes of the packet that is returned. -/
def joined (headLen : ℕ) (fragments : List Packet) : List UInt8 :=
  ((fragments.head?.map Packet.content).getD []).take headLen ++
    fragments.flatMap fun f => f.content.drop (headLen + 8)

/-- The end of `Ip6Reassemble`: the fragments are joined if they are all there. -/
def deliver (a : Assemble) (alloc : Alloc) : Option Outcome :=
  if a.totalLen ≠ 0 ∧ a.curLen ≥ a.totalLen then
    match a.fragments.getLast? with
    | none => none
    | some last =>
      if last.info.endPos ≠ a.totalLen then some .dropped
      else
        match a.headLen with
        | none => none
        | some headLen =>
          if ¬ alloc.fragment ∨ ((a.fragments.head?.map Packet.content).getD []).length < headLen then
            none
          else if ¬ alloc.list then some .dropped
          else some (.delivered ⟨joined headLen a.fragments, a⟩)
  else some (.kept a)

/-- `Ip6Reassemble` for the entry of the fragment: what becomes of the entry, and the packets that
are freed. -/
def assembleFragment (a : Assemble) (p : Packet) (alloc : Alloc) : Option (Outcome × List ℕ) :=
  match cutPrev p (a.fragments.takeWhile (notBehind clip p)) with
  | none => none
  | some none => some (.kept a, [p.name])
  | some (some before) =>
    match removeOverlapped p a.curLen (a.fragments.dropWhile (notBehind clip p)) with
    | none => none
    | some ⟨curLen, gone, rest, none⟩ =>
      some (.kept { a with curLen := curLen, fragments := before ++ rest },
        names gone ++ [p.name])
    | some ⟨curLen, gone, rest, some p'⟩ =>
      match updateInfo { a with curLen := curLen } before rest p' alloc with
      | none => none
      | some (.inl a) => some (.kept a, names gone ++ [p.name])
      | some (.inr a) =>
        (deliver a alloc).map fun o =>
          match o with
          -- the entry is freed with its packets, and the packet once more
          | .dropped => (.dropped, names gone ++ names a.fragments ++ [p.name])
          | o => (o, names gone)

/-- The search for the entry of a fragment in its bucket: the entries before it, the entry, and
those behind it. A new entry is put first; `none` if it cannot be allocated. -/
def findEntry (bucket : List Assemble) (k : Key) (alloc : Alloc) :
    Option (List Assemble × Assemble × List Assemble) :=
  match bucket.dropWhile fun a => a.key ≠ k with
  | a :: behind => some (bucket.takeWhile (fun a => a.key ≠ k), a, behind)
  | [] => if alloc.entry then some ([], ip6CreateAssembleEntry k, bucket) else none

def ip6Reassemble (s : AssembleState) (p : Packet) (alloc : Alloc) :
    Option (AssembleState × Option NewPacket) :=
  let index := ip6AssembleHash p.key
  match findEntry (s.table index) p.key alloc with
  | none => some ({ s with freed := s.freed ++ [p.name] }, none)
  | some (before, a, behind) =>
    (assembleFragment a p alloc).map fun r =>
      match r.1 with
      | .kept a =>
        (⟨update s.table index (before ++ a :: behind), s.freed ++ r.2⟩, none)
      | .dropped => (⟨update s.table index (before ++ behind), s.freed ++ r.2⟩, none)
      | .delivered new =>
        (⟨update s.table index (before ++ behind), s.freed ++ r.2⟩, some new)

/-! ## What the lists are to be -/

/-- **A fragment as `Ip6PreProcessPacket` hands it over**: headers, the fragment header of eight
bytes, and the payload. Without extension headers the IPv6 header names the fragment header. -/
structure Packet.WellFormed (p : Packet) : Prop where
  nonneg : 0 ≤ p.info.start
  start_le : p.info.start ≤ p.info.endPos
  length_eq : p.info.length = p.info.endPos - p.info.start
  headLen_ge : 40 ≤ p.info.headLen
  length_content : (p.content.length : ℤ) = p.info.headLen + 8 + p.info.length
  fragmentHeader : unFragmentLen p = 0 → p.content[6]? = some 44

def Packet.payload (p : Packet) : List UInt8 := p.content.drop (p.info.headLen + 8)

/-- A stored fragment before the packet holds all of it. -/
def Refused (fs : List Packet) (p : Packet) : Prop :=
  ∃ f ∈ fs, f.info.start ≤ p.info.start ∧ p.info.start < f.info.endPos ∧
    p.info.endPos ≤ f.info.endPos

/-- The stored fragments that the packet does not cover. -/
def uncovered (fs : List Packet) (p : Packet) : List Packet :=
  fs.filter fun f => ¬ (p.info.start < f.info.start ∧ f.info.endPos ≤ p.info.endPos)

/-- **A call that comes to none of the faults.** No fragment has to be cut at its end. A first
fragment that is stored is the only one, its backup can be made, and the byte that names the next
header is in its unfragmentable part. When the fragments add up to the length of the datagram, none
of them ends behind it, all have headers of the same length, and the buffers can be allocated. -/
structure Calm (a : Assemble) (p : Packet) (alloc : Alloc) : Prop where
  prev : ∀ f ∈ a.fragments, f.info.start ≤ p.info.start → p.info.start < f.info.endPos →
    p.info.endPos ≤ f.info.endPos
  next : ∀ f ∈ a.fragments, p.info.start < f.info.start → f.info.start < p.info.endPos →
    f.info.endPos ≤ p.info.endPos
  first : ¬ Refused a.fragments p → p.info.start = 0 →
    a.headLen = none ∧ alloc.duplicate = true ∧ nextHeaderOffset p < p.info.headLen
  last : ¬ Refused a.fragments p → updateTotal a p ≠ 0 →
    updateTotal a p ≤ lengthsOf clip (p :: uncovered a.fragments p) →
      (∀ f ∈ p :: uncovered a.fragments p, f.info.endPos ≤ updateTotal a p ∧
        f.info.headLen = p.info.headLen) ∧ alloc.fragment = true ∧ alloc.list = true

instance (fs : List Packet) (p : Packet) : Decidable (Refused fs p) :=
  inferInstanceAs (Decidable (∃ f ∈ fs, _))

set_option synthInstance.maxSize 512 in
instance (a : Assemble) (p : Packet) (alloc : Alloc) : Decidable (Calm a p alloc) :=
  decidable_of_iff (_ ∧ _ ∧ _ ∧ _)
    ⟨fun h => ⟨h.1, h.2.1, h.2.2.1, h.2.2.2⟩, fun h => ⟨h.prev, h.next, h.first, h.last⟩⟩

/-- The fragment as it is stored: a first fragment names the header behind the fragment header. -/
def stored (r : Packet) : Packet := if r.info.start = 0 then adjusted r else r

/-- **What an assemble entry is to be**, for the fragments `R` received so far. -/
structure Sound (R : List Packet) (a : Assemble) : Prop where
  disjoint : a.fragments.Pairwise fun f g => f.info.endPos ≤ g.info.start
  received : ∀ f ∈ a.fragments, ∃ r ∈ R, r.WellFormed ∧ r.key = a.key ∧ f = stored r ∧
    (r.info.start = 0 → nextHeaderOffset r < r.info.headLen)
  curLen_eq : a.curLen = lengthsOf clip a.fragments
  headLen_iff : a.headLen.isSome ↔ ∃ f ∈ a.fragments, f.info.start = 0
  headLen_eq : ∀ n, a.headLen = some n →
    ∃ f ∈ a.fragments, f.info.start = 0 ∧ f.info.headLen = n
  packet_eq : a.packet = a.headLen.isSome
  totalLen_nonneg : 0 ≤ a.totalLen

/-- The byte at a position of the datagram was received in a fragment, for that position. -/
def Received (R : List Packet) (k : Key) (i : ℕ) (byte : UInt8) : Prop :=
  ∃ r ∈ R, r.key = k ∧ r.info.start ≤ i ∧ (i : ℤ) < r.info.endPos ∧
    r.payload[(i - r.info.start).toNat]? = some byte

/-- **The bytes of a datagram**: the unfragmentable part of a first fragment, and `total` bytes of
payload that were received for their positions. -/
def Complete (R : List Packet) (k : Key) (total : ℤ) (content : List UInt8) : Prop :=
  ∃ r ∈ R, r.key = k ∧ r.info.start = 0 ∧ ∃ payload,
    content = (adjusted r).content.take r.info.headLen ++ payload ∧
      (payload.length : ℤ) = total ∧ ∀ i byte, payload[i]? = some byte → Received R k i byte

/-! ## Stored fragments -/

section Stored

variable {R : List Packet} {a : Assemble} {p r f : Packet}

@[simp] theorem info_stored (r : Packet) : (stored r).info = r.info := by
  unfold stored
  split <;> rfl

@[simp] theorem name_stored (r : Packet) : (stored r).name = r.name := by
  unfold stored
  split <;> rfl

theorem length_content_stored (r : Packet) : (stored r).content.length = r.content.length := by
  unfold stored
  split
  · exact length_set
  · rfl

theorem payload_stored (h : r.info.start = 0 → nextHeaderOffset r < r.info.headLen) :
    (stored r).payload = r.payload := by
  unfold Packet.payload
  rw [info_stored]
  unfold stored
  split
  · rename_i hs
    exact drop_set_of_lt (by omega)
  · rfl

theorem Packet.WellFormed.length_payload (h : r.WellFormed) :
    (r.payload.length : ℤ) = r.info.endPos - r.info.start := by
  have hc := h.length_content
  have hl := h.length_eq
  have hle := h.start_le
  unfold Packet.payload
  rw [length_drop]
  omega

theorem Sound.bounds (h : Sound R a) (hf : f ∈ a.fragments) : 0 ≤ f.info.start ∧
    f.info.start ≤ f.info.endPos ∧ f.info.length = f.info.endPos - f.info.start := by
  obtain ⟨r, -, hwf, -, rfl, -⟩ := h.received f hf
  rw [info_stored]
  exact ⟨hwf.nonneg, hwf.start_le, hwf.length_eq⟩

theorem Sound.length_payload (h : Sound R a) (hf : f ∈ a.fragments) :
    (f.payload.length : ℤ) = f.info.endPos - f.info.start := by
  obtain ⟨r, -, hwf, -, rfl, ho⟩ := h.received f hf
  rw [payload_stored ho, info_stored]
  exact hwf.length_payload

theorem Sound.mono (h : Sound R a) (p : Packet) : Sound (R ++ [p]) a :=
  { h with
    received := fun f hf =>
      (h.received f hf).imp fun _ hr => ⟨mem_append_left _ hr.1, hr.2⟩ }

theorem Sound.names_subset (h : Sound R a) : ∀ n ∈ names a.fragments, n ∈ names R := by
  intro n hn
  obtain ⟨f, hf, rfl⟩ := mem_map.mp hn
  obtain ⟨r, hr, -, -, rfl, -⟩ := h.received f hf
  rw [name_stored]
  exact mem_map_of_mem hr

/-- Where an entry is sound, the search for the insertion point splits the fragments by where they
start. -/
theorem Sound.split (h : Sound R a) (p : Packet) :
    a.fragments =
        a.fragments.takeWhile (notBehind clip p) ++ a.fragments.dropWhile (notBehind clip p) ∧
      (∀ f ∈ a.fragments.takeWhile (notBehind clip p),
        f ∈ a.fragments ∧ f.info.start ≤ p.info.start) ∧
      ∀ f ∈ a.fragments.dropWhile (notBehind clip p),
        f ∈ a.fragments ∧ p.info.start < f.info.start :=
  takeWhile_dropWhile_lo h.disjoint (fun f hf => (h.bounds hf).2.1) fun f => by simp [notBehind]

end Stored

/-! ## Inserting a packet -/

section Insert

variable {R : List Packet} {a a' : Assemble} {p : Packet} {before gone rest after : List Packet}
  {alloc : Alloc}

theorem removeOverlapped_calm (curLen : ℤ)
    (hd : after.Pairwise fun f g => f.info.endPos ≤ g.info.start)
    (hle : ∀ f ∈ after, f.info.start ≤ f.info.endPos)
    (hnext : ∀ f ∈ after, f.info.start < p.info.endPos → f.info.endPos ≤ p.info.endPos) :
    ∃ gone rest, after = gone ++ rest ∧ (∀ f ∈ gone, f.info.endPos ≤ p.info.endPos) ∧
      (∀ f ∈ rest, p.info.endPos ≤ f.info.start ∧ p.info.endPos < f.info.endPos) ∧
      removeOverlapped p curLen after =
        some ⟨curLen - lengthsOf clip gone, gone, rest, some p⟩ := by
  induction after generalizing curLen with
  | nil =>
    refine ⟨[], [], rfl, by simp, by simp, ?_⟩
    rw [removeOverlapped, lengthsOf_nil, Int.sub_zero]
  | cons f fs ih =>
    obtain ⟨hf, hfs⟩ := pairwise_cons.mp hd
    obtain ⟨hlef, hl⟩ := forall_mem_cons.mp hle
    obtain ⟨hne, hn⟩ := forall_mem_cons.mp hnext
    rw [removeOverlapped]
    by_cases hc : f.info.endPos ≤ p.info.endPos
    · obtain ⟨gone, rest, hsp, hgo, hr, hlo⟩ :=
        ih (curLen - f.info.length) hfs hl hn
      refine ⟨f :: gone, rest, by rw [hsp, cons_append], ?_, hr, ?_⟩
      · exact forall_mem_cons.mpr ⟨hc, hgo⟩
      · rw [if_pos hc, hlo, lengthsOf_cons, ← Int.sub_sub]
        rfl
    · have hs : ¬ f.info.start < p.info.endPos := fun hlt => hc (hne hlt)
      refine ⟨[], f :: fs, rfl, by simp, ?_, ?_⟩
      · refine forall_mem_cons.mpr ⟨⟨by omega, by omega⟩, fun g hg => ?_⟩
        have hfg := hf g hg
        have hg := hl g hg
        exact ⟨by omega, by omega⟩
      · rw [if_neg hc, if_neg hs, lengthsOf_nil, Int.sub_zero]

theorem Calm.endPos_le {f : Packet} (h : Calm a p alloc) (hp : ¬ Refused a.fragments p)
    (hf : f ∈ a.fragments) (hs : f.info.start ≤ p.info.start) :
    f.info.endPos ≤ p.info.start := by
  by_contra hlt
  have hlt := Int.not_le.mp hlt
  exact hp ⟨f, hf, hs, hlt, h.prev f hf hs hlt⟩

theorem cutPrev_refused (h : Sound R a) (hp : Refused a.fragments p) :
    cutPrev p (a.fragments.takeWhile (notBehind clip p)) = some none := by
  obtain ⟨f, hf, hst, hlt, hle⟩ := hp
  obtain ⟨hs, hbe, ha⟩ := h.split p
  have hpr := (pairwise_append.mp (hs ▸ h.disjoint)).1
  generalize a.fragments.takeWhile (notBehind clip p) = before at *
  have hf' : f ∈ before := by
    rw [hs] at hf
    refine (mem_append.mp hf).resolve_right fun hmem => ?_
    have hb := (ha f hmem).2
    omega
  obtain ⟨last, hlast⟩ := ne_none_iff_exists'.mp
    (mt List.getLast?_eq_none_iff.mp (ne_nil_of_mem hf'))
  have ho := hi_le_of_getLast? hpr (fun g hg => (h.bounds (hbe g hg).1).2.1) hlast f hf'
  -- a fragment behind it would start behind the packet
  obtain rfl : f = last := by
    by_contra hne
    have he := ho.2 hne
    have hs' := (hbe last (mem_of_getLast? hlast)).2
    omega
  unfold cutPrev
  rw [hlast]
  simp only
  rw [if_pos hlt, if_pos hle]

theorem cutPrev_calm (hb : ∀ f ∈ before, f.info.endPos ≤ p.info.start) :
    cutPrev p before = some (some before) := by
  unfold cutPrev
  cases hlast : before.getLast? with
  | none => rfl
  | some prev =>
    have he := hb prev (mem_of_getLast? hlast)
    simp only
    rw [if_neg (by omega)]

/-- The entry with a packet inserted between `before` and `rest`. -/
def inserted (a : Assemble) (before gone rest : List Packet) (p : Packet) : Assemble where
  key := a.key
  totalLen := updateTotal a p
  curLen := a.curLen - lengthsOf clip gone + p.info.length
  fragments := before ++ stored p :: rest
  headLen := if p.info.start = 0 then some p.info.headLen else a.headLen
  packet := if p.info.start = 0 then true else a.packet

theorem updateInfo_calm (hso : Sound R a) (hp : p.WellFormed)
    (hf : p.info.start = 0 →
      a.headLen = none ∧ alloc.duplicate = true ∧ nextHeaderOffset p < p.info.headLen) :
    updateInfo { a with curLen := a.curLen - lengthsOf clip gone } before rest p alloc =
      some (.inr (inserted a before gone rest p)) := by
  unfold updateInfo inserted stored
  by_cases hs : p.info.start = 0
  · obtain ⟨hnone, hd, ho⟩ := hf hs
    have hpa : a.packet = false := by rw [hso.packet_eq, hnone]; rfl
    have ha : adjustHeader p = some (some (adjusted p)) := by
      unfold adjustHeader
      by_cases hl : unFragmentLen p = 0
      · rw [if_pos hl, if_pos (hp.fragmentHeader hl)]
      · have hc := hp.length_content
        have hlen := hp.length_eq
        have hle := hp.start_le
        rw [if_neg hl, if_pos (by omega)]
    simp only [if_pos hs, hnone, hpa, hd, ha]
    rfl
  · simp only [if_neg hs]
    rfl

/-- **A packet that is inserted keeps the entry sound.** -/
theorem inserted_sound (h : Sound R a) (hsp : a.fragments = before ++ (gone ++ rest))
    (hp : p.WellFormed) (hk : p.key = a.key)
    (hb : ∀ f ∈ before, f.info.endPos ≤ p.info.start)
    (hgo : ∀ f ∈ gone, 0 < f.info.start)
    (hr : ∀ f ∈ rest, p.info.endPos ≤ f.info.start)
    (hfi : p.info.start = 0 → nextHeaderOffset p < p.info.headLen) :
    Sound (R ++ [p]) (inserted a before gone rest p) := by
  have hmem : ∀ f, f ∈ before ++ stored p :: rest → f = stored p ∨ f ∈ a.fragments := by
    intro f hf
    rw [hsp]
    simp only [mem_append, mem_cons] at hf ⊢
    tauto
  refine ⟨?_, ?_, ?_, ?_, ?_, ?_, ?_⟩
  · refine pairwise_replace (hsp ▸ h.disjoint) ?_ ?_
    · rwa [info_stored]
    · rwa [info_stored]
  · intro f hf
    rcases hmem f hf with rfl | hf
    · exact ⟨p, mem_append_right _ (mem_singleton_self p), hp, hk, rfl, hfi⟩
    · exact (h.mono p).received f hf
  · have hc := h.curLen_eq
    rw [hsp] at hc
    simp only [inserted, lengthsOf_append, lengthsOf_cons, clip, info_stored] at hc ⊢
    omega
  · show (if p.info.start = 0 then some p.info.headLen else a.headLen).isSome = true ↔
      ∃ f ∈ before ++ stored p :: rest, f.info.start = 0
    by_cases hz : p.info.start = 0
    · rw [if_pos hz]
      refine ⟨fun _ => ⟨stored p, by simp, ?_⟩, fun _ => rfl⟩
      rw [info_stored, hz]
    · -- a fragment that was removed does not start at zero, and neither does the new one
      rw [if_neg hz, h.headLen_iff, hsp]
      refine exists_mem_replace (fun f hf hs => absurd (hgo f hf) (by omega)) ?_
      rwa [info_stored]
  · show ∀ n, (if p.info.start = 0 then some p.info.headLen else a.headLen) = some n →
      ∃ f ∈ before ++ stored p :: rest, f.info.start = 0 ∧ f.info.headLen = n
    intro n hn
    by_cases hz : p.info.start = 0
    · rw [if_pos hz] at hn
      refine ⟨stored p, by simp, ?_⟩
      rw [info_stored]
      exact ⟨hz, some.inj hn⟩
    · rw [if_neg hz] at hn
      have hold := h.headLen_eq n hn
      rw [hsp] at hold
      refine (exists_mem_replace (fun f hf hs => absurd (hgo f hf) (by omega)) fun hs => hz ?_).mp hold
      rw [← info_stored p]
      exact hs.1
  · show (if p.info.start = 0 then true else a.packet) =
      (if p.info.start = 0 then some p.info.headLen else a.headLen).isSome
    split
    · rfl
    · exact h.packet_eq
  · show 0 ≤ updateTotal a p
    have he := hp.nonneg
    have hle := hp.start_le
    unfold updateTotal
    split
    · omega
    · exact h.totalLen_nonneg

end Insert

/-! ## The packet that is returned -/

variable {n : ℕ}

section Deliver

variable {R : List Packet} {a : Assemble} {p : Packet} {alloc : Alloc}

theorem Sound.chained (h : Sound R a) (ha : a.totalLen ≤ a.curLen)
    (hu : ∀ f ∈ a.fragments, f.info.endPos ≤ a.totalLen) :
    Chained (fun f : Packet => f.info.start) (fun f => f.info.endPos) 0 a.fragments a.totalLen := by
  refine chained_of_le_sum h.totalLen_nonneg
    ⟨h.disjoint, fun f hf => (h.bounds hf).2.1, fun f hf => (h.bounds hf).1, hu⟩ ?_
  have hw : (a.fragments.map fun f => f.info.endPos - f.info.start).sum = a.curLen := by
    rw [h.curLen_eq]
    exact congrArg List.sum (map_congr_left fun f hf => (h.bounds hf).2.2.symm)
  omega

/-- **A packet that is returned holds the bytes that were received.** -/
theorem joined_complete (h : Sound R a) (ht : a.totalLen ≠ 0)
    (hch : Chained (fun f : Packet => f.info.start) (fun f => f.info.endPos) 0 a.fragments
      a.totalLen)
    (hsa : ∀ f ∈ a.fragments, f.info.headLen = n) :
    Complete R a.key a.totalLen (joined n a.fragments) ∧ a.headLen = some n ∧
      n ≤ ((a.fragments.head?.map Packet.content).getD []).length := by
  have hca : ∀ f ∈ a.fragments, ((f.content.drop (n + 8)).length : ℤ) =
      f.info.endPos - f.info.start := by
    intro f hf
    rw [← hsa f hf]
    exact h.length_payload hf
  have hlen := hch.length_flatMap hca
  obtain ⟨first, rest, hfr⟩ : ∃ first rest, a.fragments = first :: rest := by
    cases hfr : a.fragments with
    | nil =>
      rw [hfr] at hch
      exact absurd hch.symm ht
    | cons first rest => exact ⟨first, rest, rfl⟩
  have hmem : first ∈ a.fragments := hfr ▸ mem_cons_self
  have hs : first.info.start = 0 := by
    rw [hfr] at hch
    exact hch.1
  have hso : a.headLen = some n := by
    obtain ⟨k, hk⟩ := isSome_iff_exists.mp (h.headLen_iff.mpr ⟨first, hmem, hs⟩)
    obtain ⟨f, hf, -, hl⟩ := h.headLen_eq k hk
    rw [hk, ← hl, hsa f hf]
  obtain ⟨r, hr, hwf, hk, hfi, -⟩ := h.received first hmem
  have hin : first.info = r.info := by rw [hfi, info_stored]
  have hn : r.info.headLen = n := by rw [← hin]; exact hsa first hmem
  have hz : r.info.start = 0 := by rw [← hin]; exact hs
  have hc : first.content = (adjusted r).content := by
    rw [hfi, stored, if_pos hz]
  have hh : ((a.fragments.head?.map Packet.content).getD []) = first.content := by
    rw [hfr]
    rfl
  refine ⟨⟨r, hr, hk, hz, a.fragments.flatMap fun f => f.content.drop (n + 8), ?_, ?_, ?_⟩, hso,
    ?_⟩
  · rw [joined, hh, hc, hn]
  · rw [hlen, Int.sub_zero]
  · intro i byte hb
    have hi := (List.getElem?_eq_some_iff.mp hb).1
    obtain ⟨f, hf, hlo, hhi, hg⟩ := hch.getElem?_flatMap hca
      (show (0 : ℤ) ≤ i by omega) (by omega)
    obtain ⟨r', hr', -, hk', rfl, ho⟩ := h.received f hf
    rw [info_stored] at hlo hhi
    refine ⟨r', hr', hk', hlo, hhi, ?_⟩
    have hp : (stored r').content.drop (n + 8) = r'.payload := by
      rw [← payload_stored ho, Packet.payload, hsa (stored r') hf]
    rw [Int.sub_zero, Int.toNat_natCast, hp, info_stored, hb] at hg
    exact hg.symm
  · have hl := hwf.length_content
    have hw := hwf.length_eq
    have hle := hwf.start_le
    rw [hh, hfi, length_content_stored]
    omega

/-- **The end of a call**: the entry stays, or its datagram is returned. -/
theorem deliver_calm (alloc : Alloc) (h : Sound R a)
    (hlast : a.totalLen ≠ 0 → a.totalLen ≤ a.curLen →
      (∃ n, ∀ f ∈ a.fragments, f.info.endPos ≤ a.totalLen ∧ f.info.headLen = n) ∧
        alloc.fragment = true ∧ alloc.list = true) :
    deliver a alloc = some (.kept a) ∨ ∃ content, deliver a alloc = some (.delivered ⟨content, a⟩) ∧
      Complete R a.key a.totalLen content := by
  unfold deliver
  by_cases ha : a.totalLen ≠ 0 ∧ a.curLen ≥ a.totalLen
  · right
    obtain ⟨⟨n, hfi⟩, hfra, hli⟩ := hlast ha.1 ha.2
    have hc := h.chained ha.2 fun f hf => (hfi f hf).1
    obtain ⟨hco, hso, hlo⟩ := joined_complete h ha.1 hc fun f hf => (hfi f hf).2
    rw [if_pos ha]
    cases he : a.fragments.getLast? with
    | none =>
      rw [List.getLast?_eq_none_iff] at he
      rw [he] at hc
      exact absurd hc.symm ha.1
    | some last =>
      refine ⟨joined n a.fragments, ?_, hco⟩
      simp only [hso, hfra, hli]
      rw [if_neg (not_not.mpr (hc.hi_getLast? he)), if_neg, if_neg]
      · exact fun hfa => hfa trivial
      · rintro (hfa | hshort)
        · exact hfa trivial
        · omega
  · left
    rw [if_neg ha]

/-- **What a calm call does to its entry**: the packet is refused, or it is inserted and the
fragments that it covers are freed; then the entry stays or its datagram is returned. -/
theorem assembleFragment_calm (h : Sound R a) (hp : p.WellFormed) (hk : p.key = a.key)
    (hca : Calm a p alloc) :
    assembleFragment a p alloc = some (.kept a, [p.name]) ∨
      ∃ before gone rest, a.fragments = before ++ (gone ++ rest) ∧
        Sound (R ++ [p]) (inserted a before gone rest p) ∧
        (assembleFragment a p alloc = some (.kept (inserted a before gone rest p), names gone) ∨
          ∃ content, assembleFragment a p alloc =
              some (.delivered ⟨content, inserted a before gone rest p⟩, names gone) ∧
            Complete (R ++ [p]) a.key (updateTotal a p) content) := by
  by_cases hre : Refused a.fragments p
  · left
    unfold assembleFragment
    rw [cutPrev_refused h hre]
  right
  obtain ⟨hsp, hbe, haf⟩ := h.split p
  unfold assembleFragment
  generalize a.fragments.takeWhile (notBehind clip p) = before at *
  generalize a.fragments.dropWhile (notBehind clip p) = after at *
  have hl : ∀ f ∈ before, f.info.endPos ≤ p.info.start := fun f hf =>
    hca.endPos_le hre (hbe f hf).1 (hbe f hf).2
  have hpo := (pairwise_append.mp (hsp ▸ h.disjoint)).2.1
  obtain ⟨gone, rest, rfl, hg, hr, hlo⟩ := removeOverlapped_calm a.curLen hpo
    (fun f hf => (h.bounds (haf f hf).1).2.1)
    (fun f hf => hca.next f (haf f hf).1 (haf f hf).2)
  have hpos : ∀ f ∈ gone, 0 < f.info.start := by
    intro f hf
    have hb := (haf f (mem_append_left _ hf)).2
    have hn := hp.nonneg
    omega
  have hso := inserted_sound h hsp hp hk hl hpos (fun f hf => (hr f hf).1)
    fun hst => (hca.first hre hst).2.2
  refine ⟨before, gone, rest, hsp, hso, ?_⟩
  -- the fragments that are not covered are those before the packet and the rest
  have hu : uncovered a.fragments p = before ++ rest := by
    unfold uncovered
    rw [hsp, filter_append, filter_append, filter_eq_self.mpr,
      filter_eq_nil_iff.mpr, filter_eq_self.mpr, nil_append]
    · intro f hf
      have he := (hr f hf).2
      simp only [decide_eq_true_eq]
      omega
    · intro f hf
      have hb := (haf f (mem_append_left _ hf)).2
      have he := hg f hf
      simp only [decide_eq_true_eq]
      omega
    · intro f hf
      have hst := (hbe f hf).2
      simp only [decide_eq_true_eq]
      omega
  have hlast := hca.last hre
  rw [hu] at hlast
  have hc := hso.curLen_eq
  rw [cutPrev_calm hl, hlo]
  simp only
  rw [updateInfo_calm h hp (hca.first hre)]
  simp only
  have hde := deliver_calm alloc hso (by
    intro hne hle
    have hs : updateTotal a p ≤ lengthsOf clip (p :: (before ++ rest)) := by
      rw [hc] at hle
      simp only [inserted, lengthsOf_append, lengthsOf_cons, clip, info_stored] at hle ⊢
      omega
    obtain ⟨hfi, ha⟩ := hlast hne hs
    refine ⟨⟨p.info.headLen, fun f hf => ?_⟩, ha⟩
    simp only [inserted, mem_append, mem_cons] at hf
    rcases hf with hf | rfl | hf
    · exact hfi f (mem_cons_of_mem _ (mem_append_left _ hf))
    · rw [info_stored]
      exact hfi p mem_cons_self
    · exact hfi f (mem_cons_of_mem _ (mem_append_right _ hf)))
  rcases hde with hkept | ⟨content, hd, hco⟩
  · left
    rw [hkept]
    rfl
  · right
    refine ⟨content, ?_, hco⟩
    rw [hd]
    rfl

end Deliver

/-! ## Runs -/

section Runs

variable {k : Key} {R : List Packet} {s s' : AssembleState} {p : Packet} {alloc : Alloc}

def ip6CreateAssembleTable : AssembleState := ⟨fun _ => [], []⟩

/-- A call that comes to none of the faults, in the entry of its fragment. -/
def CalmCall (s : AssembleState) (p : Packet) (alloc : Alloc) : Prop :=
  ∀ before a behind,
    findEntry (s.table (ip6AssembleHash p.key)) p.key alloc = some (before, a, behind) →
      Calm a p alloc

instance (s : AssembleState) (p : Packet) (alloc : Alloc) : Decidable (CalmCall s p alloc) :=
  match h : findEntry (s.table (ip6AssembleHash p.key)) p.key alloc with
  | none => .isTrue fun _ _ _ heq => by cases h.symm.trans heq
  | some (_, a, _) =>
    decidable_of_iff (Calm a p alloc)
      ⟨fun hc _ _ _ heq => by cases h.symm.trans heq; exact hc, fun hc => hc _ _ _ h⟩

/-- The table with at most one entry, that of the datagram `k`. -/
def tableOf (k : Key) (entry : Option Assemble) : ℕ → List Assemble :=
  update (fun _ => []) (ip6AssembleHash k) entry.toList

/-- What holds between the calls for one datagram: its entry is sound, and a packet is in its list
or freed at most once. -/
structure Good (k : Key) (R : List Packet) (s : AssembleState) (entry : Option Assemble) : Prop where
  table_eq : s.table = tableOf k entry
  sound : ∀ a, entry = some a → a.key = k ∧ Sound R a
  nodup : ((entry.elim [] fun a => names a.fragments) ++ s.freed).Nodup
  freed : ∀ n ∈ s.freed, n ∈ names R

variable {entry : Option Assemble}

theorem sound_ip6CreateAssembleEntry (R : List Packet) (k : Key) :
    Sound R (ip6CreateAssembleEntry k) where
  disjoint := .nil
  received _ hf := absurd hf not_mem_nil
  curLen_eq := rfl
  headLen_iff := ⟨fun h => absurd h Bool.false_ne_true, fun ⟨_, hf, _⟩ => absurd hf not_mem_nil⟩
  headLen_eq _ h := by cases h
  packet_eq := rfl
  totalLen_nonneg := Int.le_refl _

theorem Good.fresh (h : Good k R s entry) (hp : p.name ∉ names R) :
    p.name ∉ (entry.elim [] fun a => names a.fragments) ++ s.freed := by
  intro hmem
  rcases mem_append.mp hmem with hmem | hmem
  · cases entry with
    | none => cases hmem
    | some a => exact hp ((h.sound a rfl).2.names_subset _ hmem)
  · exact hp (h.freed _ hmem)

theorem Good.free (h : Good k R s entry) (hp : p.name ∉ names R) :
    Good k (R ++ [p]) { s with freed := s.freed ++ [p.name] } entry := by
  refine ⟨h.table_eq, fun a ha => ⟨(h.sound a ha).1, (h.sound a ha).2.mono p⟩, ?_, ?_⟩
  · rw [← append_assoc]
    exact h.nodup.append (nodup_singleton _) (disjoint_singleton.mpr (h.fresh hp))
  · intro n hn
    rw [names, map_append]
    exact mem_append.mpr ((mem_append.mp hn).imp_left (h.freed n))

/-- **A calm call keeps the entry sound, and the packets apart**; a packet that it returns holds the
bytes that were received. -/
theorem ip6Reassemble_calm (h : Good k R s entry) (hp : p.WellFormed)
    (hk : p.key = k) (hfre : p.name ∉ names R) (hca : CalmCall s p alloc) :
    ∃ s' out entry', ip6Reassemble s p alloc = some (s', out) ∧ Good k (R ++ [p]) s' entry' ∧
      ∀ new, out = some new → Complete (R ++ [p]) k new.arg.totalLen new.content := by
  subst hk
  -- the entry is the one of the table or a new one
  have hfi : findEntry (s.table (ip6AssembleHash p.key)) p.key alloc =
      match entry with
      | some a => some ([], a, [])
      | none => if alloc.entry then some ([], ip6CreateAssembleEntry p.key, []) else none := by
    rw [h.table_eq]
    unfold findEntry tableOf
    rw [update_self]
    cases entry with
    | none => rfl
    | some a => simp [(h.sound a rfl).1]
  unfold ip6Reassemble
  by_cases hnone : entry = none ∧ alloc.entry = false
  · -- no entry can be allocated: the packet is freed
    obtain ⟨rfl, hal⟩ := hnone
    simp only [hal] at hfi
    refine ⟨_, none, none, ?_, h.free hfre, fun new hnew => by cases hnew⟩
    simp only [hfi]
    rfl
  obtain ⟨a, he, hg⟩ : ∃ a,
      findEntry (s.table (ip6AssembleHash p.key)) p.key alloc = some ([], a, []) ∧
        Good p.key R { s with table := tableOf p.key (some a) } (some a) := by
    cases entry with
    | none =>
      have hal : alloc.entry = true := by
        by_contra hf
        exact hnone ⟨rfl, Bool.eq_false_iff.mpr hf⟩
      simp only [hal] at hfi
      refine ⟨_, hfi, rfl, ?_, h.nodup, h.freed⟩
      rintro _ ⟨⟩
      exact ⟨rfl, sound_ip6CreateAssembleEntry R p.key⟩
    | some a => exact ⟨a, hfi, rfl, h.sound, h.nodup, h.freed⟩
  obtain ⟨ha, hso⟩ := hg.sound a rfl
  have ht entry' : update s.table (ip6AssembleHash p.key) (Option.toList entry') =
      tableOf p.key entry' := by
    rw [h.table_eq, tableOf, tableOf, update_idem]
  simp only [he]
  rcases assembleFragment_calm hso hp ha.symm (hca [] a [] he) with
    hr | ⟨before, gone, rest, hs, hs', hre⟩
  · -- the packet is refused and freed
    refine ⟨_, none, some a, by rw [hr]; rfl, ?_, fun new hnew => by cases hnew⟩
    have hf := hg.free hfre
    rw [← ht (some a)] at hf
    exact hf
  -- the packet is inserted, and the fragments it covers are freed
  have hfr : ∀ n ∈ s.freed ++ names gone, n ∈ names (R ++ [p]) := by
    intro n hn
    rcases mem_append.mp hn with hn | hn
    · exact (hg.free hfre).freed n (mem_append_left _ hn)
    · have hg : n ∈ names a.fragments := by
        rw [hs, names, map_append, map_append]
        exact mem_append_right _ (mem_append_left _ hn)
      rw [names, map_append]
      exact mem_append_left _ (hso.names_subset n hg)
  have hno := hg.nodup
  have hnew := hg.fresh hfre
  simp only [elim_some, hs] at hno hnew
  have hapart : (names before ++ p.name :: names rest ++ (s.freed ++ names gone)).Nodup := by
    refine (Perm.nodup_iff ?_).mpr (nodup_cons.mpr ⟨hnew, hno⟩)
    rw [← Multiset.coe_eq_coe]
    simp only [names, map_append, ← Multiset.cons_coe, ← Multiset.coe_add,
      ← Multiset.singleton_add]
    abel
  rcases hre with hkept | ⟨content, hd, hc⟩
  · refine ⟨_, none, some (inserted a before gone rest p), by rw [hkept]; rfl, ⟨?_, ?_, ?_, hfr⟩,
      fun new hnew => by cases hnew⟩
    · exact ht (some (inserted a before gone rest p))
    · rintro _ ⟨⟩
      exact ⟨ha, hs'⟩
    · show (names (before ++ stored p :: rest) ++ (s.freed ++ names gone)).Nodup
      rw [names, map_append, map_cons, name_stored]
      exact hapart
  · refine ⟨_, some ⟨content, inserted a before gone rest p⟩, none, by rw [hd]; rfl,
      ⟨?_, (fun a ha => by cases ha), ?_, hfr⟩, ?_⟩
    · exact ht none
    · exact (nodup_append.mp hapart).2.1
    · rintro _ ⟨⟩
      rw [← ha]
      exact hc

/-- The input of a call: the fragment, and the results of the allocations. -/
structure Input where
  packet : Packet
  alloc : Alloc

/-- A call of `Ip6Reassemble`. -/
def Step (s : AssembleState) (i : Input) (s' : AssembleState) : Prop :=
  ∃ out, ip6Reassemble s i.packet i.alloc = some (s', out)

def packets (is : List Input) : List Packet := is.map Input.packet

theorem good_of_run {is : List Input} (hfr : ∀ i ∈ is, i.packet.WellFormed ∧ i.packet.key = k)
    (hna : (names (packets is)).Nodup)
    (hr : Run (fun s i s' => CalmCall s i.packet i.alloc ∧ Step s i s') ip6CreateAssembleTable is
      s) :
    ∃ entry, Good k (packets is) s entry := by
  have hin : Good k [] ip6CreateAssembleTable none := by
    refine ⟨?_, (fun a ha => by cases ha), nodup_nil, fun n hn => absurd hn not_mem_nil⟩
    funext index
    unfold tableOf
    by_cases hid : index = ip6AssembleHash k
    · rw [hid, update_self]
      rfl
    · rw [update_of_ne hid]
      rfl
  refine Run.history (P := fun is s => (names (packets is)).Nodup →
    ∃ entry, Good k (packets is) s entry) (fun _ => ⟨none, hin⟩) ?_ (hr.restrict hfr) hna
  rintro is s i s' hg ⟨⟨hwf, hk⟩, hc, out, hs⟩ hno
  have hp : packets (is ++ [i]) = packets is ++ [i.packet] := by
    rw [packets, map_append]
    rfl
  rw [hp, names, map_append] at hno
  obtain ⟨hb, -, hd⟩ := nodup_append.mp hno
  obtain ⟨entry, he⟩ := hg hb
  have hf : i.packet.name ∉ names (packets is) := fun hmem =>
    hd _ hmem _ (mem_map_of_mem (mem_singleton_self i.packet)) rfl
  obtain ⟨s'', out', entry', hs', hg', -⟩ :=
    ip6Reassemble_calm he hwf hk hf hc
  rw [hs'] at hs
  cases hs
  rw [hp]
  exact ⟨entry', hg'⟩

/-- **IPv6 reassembly.** After every run of calm calls with the fragments of a datagram, no packet
in the list of an entry is freed, no packet was freed twice, the list is ordered and its fragments
are disjoint, and `CurLen` is the sum of their lengths. A further calm call returns, and a packet
that it returns consists of the unfragmentable part of the first fragment and of `TotalLen` bytes of
payload, each of which was received for its position. -/
theorem reassembly6_of_run {is : List Input}
    (hfrag : ∀ i ∈ is, i.packet.WellFormed ∧ i.packet.key = k)
    (hnames : (names (packets is)).Nodup)
    (hrun : Run (fun s i s' => CalmCall s i.packet i.alloc ∧ Step s i s') ip6CreateAssembleTable is
      s) :
    (∀ index, ∀ a ∈ s.table index,
      (∀ f ∈ a.fragments, f.name ∉ s.freed) ∧
      a.fragments.Pairwise (fun f g => f.info.start ≤ g.info.start) ∧
      a.fragments.Pairwise (fun f g => f.info.endPos ≤ g.info.start) ∧
      a.curLen = lengthsOf clip a.fragments) ∧
    s.freed.Nodup ∧
    ∀ (p : Packet) (alloc : Alloc), p.WellFormed → p.key = k → p.name ∉ names (packets is) →
      CalmCall s p alloc → ∃ s' out, ip6Reassemble s p alloc = some (s', out) ∧
        ∀ new, out = some new →
          Complete (packets is ++ [p]) k new.arg.totalLen new.content := by
  obtain ⟨entry, hg⟩ := good_of_run hfrag hnames hrun
  refine ⟨fun index a ha => ?_, ?_, fun p alloc hp hk hfr hca => ?_⟩
  · have he : entry = some a := by
      rw [hg.table_eq, tableOf] at ha
      by_cases hid : index = ip6AssembleHash k
      · rw [hid, update_self] at ha
        exact Option.mem_toList.mp ha
      · rw [update_of_ne hid] at ha
        exact absurd ha not_mem_nil
    obtain ⟨-, hs⟩ := hg.sound a he
    have hn := hg.nodup
    rw [he] at hn
    refine ⟨fun f hf hfre => ?_, ?_, hs.disjoint, hs.curLen_eq⟩
    · exact (nodup_append.mp hn).2.2 f.name (mem_map_of_mem hf) f.name hfre rfl
    · refine hs.disjoint.imp_of_mem fun {f g} hf _ hle => ?_
      have hsta := (hs.bounds hf).2.1
      omega
  · exact (nodup_append.mp hg.nodup).2.1
  · obtain ⟨s', out, entry', hst, -, hc⟩ := ip6Reassemble_calm hg hp hk hfr hca
    exact ⟨s', out, hst, hc⟩

end Runs

section Samples

/-- A fragment without extension headers, of `len` bytes from `start` on. -/
private def sample6Fragment (name : ℕ) (start : ℤ) (len : ℕ) (last : Bool) : Packet where
  name := name
  content := (List.replicate 48 0).set 6 44 ++ List.replicate len (UInt8.ofNat name)
  key := ⟨1, 2, 3⟩
  info := ⟨⟨start, start + len, len⟩, 40, 17, last, 0⟩

private theorem wellFormed_sample6Fragment (name : ℕ) {start : ℤ} (len : ℕ) (last : Bool)
    (h : 0 ≤ start) : (sample6Fragment name start len last).WellFormed where
  nonneg := h
  start_le := show start ≤ start + len by omega
  length_eq := show (len : ℤ) = start + len - start by omega
  headLen_ge := le_refl 40
  length_content := by
    simp [sample6Fragment]
    omega
  fragmentHeader := fun _ => by
    rfl

private def sample6Alloc : Alloc := ⟨true, true, true, true⟩

/-- Two fragments that follow each other are joined behind the unfragmentable part of the first. -/
theorem reassembly6_of_run_joined :
    ∃ (s s' : AssembleState) (new : NewPacket),
      ip6Reassemble s (sample6Fragment 2 8 8 true) sample6Alloc = some (s', some new) ∧
      new.content.length = 56 ∧
      Complete [sample6Fragment 1 0 8 false, sample6Fragment 2 8 8 true] ⟨1, 2, 3⟩ 16
        new.content := by
  have hca : CalmCall ip6CreateAssembleTable (sample6Fragment 1 0 8 false) sample6Alloc := by
    decide +kernel
  have he : ((ip6Reassemble ip6CreateAssembleTable (sample6Fragment 1 0 8 false)
      sample6Alloc).bind fun r =>
        (ip6Reassemble r.1 (sample6Fragment 2 8 8 true) sample6Alloc).bind fun q =>
          q.2.map fun new => (decide (CalmCall r.1 (sample6Fragment 2 8 8 true) sample6Alloc),
            new.content.length, new.arg.totalLen)) = some (true, 56, 16) := by
    decide +kernel
  obtain ⟨⟨s, out⟩, hfi, hse⟩ := bind_eq_some_iff.mp he
  obtain ⟨⟨s', out'⟩, hst, hre⟩ := bind_eq_some_iff.mp hse
  obtain ⟨new, hout, hs⟩ := map_eq_some_iff.mp hre
  simp only [Prod.mk.injEq, decide_eq_true_eq] at hs
  obtain ⟨hc', hl, ht⟩ := hs
  subst hout
  have hfr : ∀ i ∈ [Input.mk (sample6Fragment 1 0 8 false) sample6Alloc],
      i.packet.WellFormed ∧ i.packet.key = ⟨1, 2, 3⟩ :=
    forall_mem_singleton.mpr ⟨wellFormed_sample6Fragment 1 8 false (Int.le_refl 0), rfl⟩
  have hr : Run (fun s i s' => CalmCall s i.packet i.alloc ∧ Step s i s') ip6CreateAssembleTable
      [Input.mk (sample6Fragment 1 0 8 false) sample6Alloc] s :=
    .cons ⟨hca, out, hfi⟩ (.nil s)
  obtain ⟨-, -, hnext⟩ := reassembly6_of_run hfr (nodup_singleton _) hr
  have hf : (sample6Fragment 2 8 8 true).name ∉
      names (packets [Input.mk (sample6Fragment 1 0 8 false) sample6Alloc]) := by
    decide
  obtain ⟨s'', out'', hs', hc⟩ := hnext (sample6Fragment 2 8 8 true) sample6Alloc
    (wellFormed_sample6Fragment 2 8 true (by decide)) rfl hf hc'
  rw [hst] at hs'
  cases hs'
  refine ⟨s, s', new, hst, hl, ?_⟩
  have hnew := hc new rfl
  rw [ht] at hnew
  exact hnew

/-- The calls of a list, one after the other. -/
private def sample6Run (is : List Input) : Option AssembleState :=
  is.foldlM (fun s i => (ip6Reassemble s i.packet i.alloc).map Prod.fst) ip6CreateAssembleTable

private theorem run_sample6Run {is : List Input} {s : AssembleState} (h : sample6Run is = some s) :
    Run Step ip6CreateAssembleTable is s := by
  refine (Run.of_foldlM h).mono fun s i s' hs => ?_
  obtain ⟨⟨s₁, out⟩, hc, rfl⟩ := map_eq_some_iff.mp hs
  exact ⟨out, hc⟩

/-- Three calls that go wrong. Without memory for the backup, the first fragment is freed and stays
in the list. A fragment that starts inside the one before it leaves that one with a `Length` of 24
for 8 positions. A last fragment in front of a stored one is freed with its entry, and once more. -/
theorem not_reassembly6 :
    (∃ s, Run Step ip6CreateAssembleTable
        [⟨sample6Fragment 1 0 8 false, ⟨true, false, true, true⟩⟩] s ∧
      ∃ index, ∃ a ∈ s.table index, ∃ f ∈ a.fragments, f.name ∈ s.freed) ∧
    (∃ s, Run Step ip6CreateAssembleTable
        [⟨sample6Fragment 1 8 16 false, sample6Alloc⟩, ⟨sample6Fragment 2 16 16 false, sample6Alloc⟩]
        s ∧
      ∃ index, ∃ a ∈ s.table index, a.curLen ≠ lengthsOf clip a.fragments) ∧
    ∃ s, Run Step ip6CreateAssembleTable
        [⟨sample6Fragment 1 0 8 false, sample6Alloc⟩, ⟨sample6Fragment 2 16 8 false, sample6Alloc⟩,
          ⟨sample6Fragment 3 8 8 true, sample6Alloc⟩] s ∧
      ¬ s.freed.Nodup := by
  refine ⟨?_, ?_, ?_⟩
  · have he : (sample6Run [⟨sample6Fragment 1 0 8 false, ⟨true, false, true, true⟩⟩]).map
        (fun s => decide (∃ a ∈ s.table 6, ∃ f ∈ a.fragments, f.name ∈ s.freed)) = some true := by
      decide +kernel
    obtain ⟨s, hr, hf⟩ := map_eq_some_iff.mp he
    exact ⟨s, run_sample6Run hr, 6, of_decide_eq_true hf⟩
  · have he : (sample6Run [⟨sample6Fragment 1 8 16 false, sample6Alloc⟩,
        ⟨sample6Fragment 2 16 16 false, sample6Alloc⟩]).map
        (fun s => decide (∃ a ∈ s.table 6, a.curLen ≠ lengthsOf clip a.fragments)) = some true := by
      decide +kernel
    obtain ⟨s, hr, hl⟩ := map_eq_some_iff.mp he
    exact ⟨s, run_sample6Run hr, 6, of_decide_eq_true hl⟩
  · have he : (sample6Run [⟨sample6Fragment 1 0 8 false, sample6Alloc⟩,
        ⟨sample6Fragment 2 16 8 false, sample6Alloc⟩,
        ⟨sample6Fragment 3 8 8 true, sample6Alloc⟩]).map
        (fun s => decide (¬ s.freed.Nodup)) = some true := by
      decide +kernel
    obtain ⟨s, hr, hf⟩ := map_eq_some_iff.mp he
    exact ⟨s, run_sample6Run hr, of_decide_eq_true hf⟩

end Samples

end Edk2.Net.Ip6

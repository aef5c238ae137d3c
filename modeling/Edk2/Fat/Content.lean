import Edk2.Fat.Place

/-!
# Files are byte strings

Reads, writes, positions, expansions and truncations of open files, one after another, on any number
of files: seen from outside, a file is a string of bytes, and the calls do to it what they say. A
write behind the end of a file leaves a gap, which holds whatever its clusters held.

The position of a handle and the size of the buffer are added without a look at the carry: a write
that ends beyond `2 ^ 64` is taken for one that ends near the start of the file.

## Main results

* `call_spec`: what one call does
* `refines_of_run`: every run of calls is a run of the specification
-/

namespace Edk2.Fat

open List Option EfiStatus Bool

variable {g : Layout} {v v' w : Volume} {disk disk' : Memory} {o o' : OFile} {k n p q : ℕ}
  {cs cs' : List ℕ}

def content (g : Layout) (disk : Memory) (o : OFile) (cs : List ℕ) : List UInt8 :=
  bytesAt (fun q => disk (placeOf g o cs q)) 0 o.fileSize

/-! ## The specification -/

/-- What is seen from outside: the contents of the files, and the handles. -/
structure Store where
  contents : List (List UInt8)
  handles : List IFile

/-- A call, of a handle or a file. -/
inductive FileCall
  | read (handle bufferSize : ℕ)
  | write (handle : ℕ) (data : List UInt8)
  | setPosition (handle position : ℕ)
  | expand (file expandedSize : ℕ) (zeroPool : Bool)
  | truncate (file truncatedSize : ℕ)

/-- What a call gives back: its status, the number of bytes and the bytes read. -/
structure Reply where
  status : EfiStatus
  bufferSize : ℕ
  bytes : List UInt8

/-- A string with `data` at `p`, behind a gap if the string is too short. -/
def overwrite (content : List UInt8) (p : ℕ) (gap data : List UInt8) : List UInt8 :=
  (content ++ gap).take p ++ data ++ content.drop (p + data.length)

def IFile.advance (iFile : IFile) (n : ℕ) : IFile := { iFile with position := iFile.position + n }

/-- **What the calls do.** -/
inductive FileSpec (volumeReadOnly : Bool) : FileCall → Store → Reply → Store → Prop
  | read {a : Store} {h n : ℕ} {iFile : IFile} {content : List UInt8}
      (hhandle : a.handles[h]? = some iFile) (hfile : a.contents[iFile.oFile]? = some content)
      (hin : iFile.position ≤ content.length) :
      FileSpec volumeReadOnly (.read h n) a
        ⟨.success, ((content.drop iFile.position).take n).length,
          (content.drop iFile.position).take n⟩
        { a with
          handles := a.handles.set h
            (iFile.advance ((content.drop iFile.position).take n).length) }
  | readBehind {a : Store} {h n : ℕ} {iFile : IFile} {content : List UInt8}
      (hhandle : a.handles[h]? = some iFile) (hfile : a.contents[iFile.oFile]? = some content)
      (hout : content.length < iFile.position) :
      FileSpec volumeReadOnly (.read h n) a ⟨.deviceError, n, []⟩ a
  | write {a : Store} {h : ℕ} {data gap : List UInt8} {iFile : IFile} {content : List UInt8}
      (hhandle : a.handles[h]? = some iFile) (hfile : a.contents[iFile.oFile]? = some content)
      (hvolume : volumeReadOnly = false) (hreadOnly : iFile.readOnly = false)
      (hgap : gap.length = iFile.position - content.length) :
      FileSpec volumeReadOnly (.write h data) a ⟨.success, data.length, []⟩
        { contents := a.contents.set iFile.oFile (overwrite content iFile.position gap data)
          handles := a.handles.set h (iFile.advance data.length) }
  | writeFull {a : Store} {h : ℕ} {data : List UInt8} {iFile : IFile} {content : List UInt8}
      {status : EfiStatus}
      (hhandle : a.handles[h]? = some iFile) (hfile : a.contents[iFile.oFile]? = some content)
      (hvolume : volumeReadOnly = false) (hreadOnly : iFile.readOnly = false)
      (hgrows : content.length < iFile.position + data.length)
      (hstatus : status = .volumeFull ∨
        status = .unsupported ∧ 0xFFFFFFFF < iFile.position + data.length) :
      FileSpec volumeReadOnly (.write h data) a ⟨status, 0, []⟩ a
  | writeProtected {a : Store} {h : ℕ} {data : List UInt8} {iFile : IFile}
      (hhandle : a.handles[h]? = some iFile) (hvolume : volumeReadOnly = true) :
      FileSpec volumeReadOnly (.write h data) a ⟨.writeProtected, data.length, []⟩ a
  | accessDenied {a : Store} {h : ℕ} {data : List UInt8} {iFile : IFile}
      (hhandle : a.handles[h]? = some iFile) (hvolume : volumeReadOnly = false)
      (hreadOnly : iFile.readOnly = true) :
      FileSpec volumeReadOnly (.write h data) a ⟨.accessDenied, data.length, []⟩ a
  | setPosition {a : Store} {h position : ℕ} {iFile : IFile} {content : List UInt8}
      (hhandle : a.handles[h]? = some iFile) (hfile : a.contents[iFile.oFile]? = some content) :
      FileSpec volumeReadOnly (.setPosition h position) a ⟨.success, 0, []⟩
        { a with
          handles := a.handles.set h
            { iFile with position := if position = 2 ^ 64 - 1 then content.length else position } }
  | expand {a : Store} {k expandedSize : ℕ} {zeroPool : Bool} {content : List UInt8}
      (hfile : a.contents[k]? = some content) :
      FileSpec volumeReadOnly (.expand k expandedSize zeroPool) a ⟨.success, 0, []⟩
        { a with
          contents := a.contents.set k
            (content ++ List.replicate (expandedSize - content.length) 0) }
  | expandFull {a : Store} {k expandedSize : ℕ} {zeroPool : Bool} {content : List UInt8}
      {status : EfiStatus} (hfile : a.contents[k]? = some content)
      (hstatus : status = .volumeFull ∧ content.length < expandedSize ∨
        status = .unsupported ∧ 0xFFFFFFFF < expandedSize) :
      FileSpec volumeReadOnly (.expand k expandedSize zeroPool) a ⟨status, 0, []⟩ a
  | truncate {a : Store} {k truncatedSize : ℕ} {content : List UInt8}
      (hfile : a.contents[k]? = some content) :
      FileSpec volumeReadOnly (.truncate k truncatedSize) a ⟨.success, 0, []⟩
        { a with contents := a.contents.set k (content.take truncatedSize) }

/-! ## The session -/

/-- The open files of a volume, and their handles. -/
structure Session where
  volume : Volume
  files : List OpenFile
  handles : List IFile

/-- What is left of a session after an access of a handle. -/
def Session.accessed (s : Session) (handle file : ℕ) (a : Accessed) : Session where
  volume := a.volume
  files := s.files.set file a.file
  handles := s.handles.set handle a.iFile

/-- What is left of a session after a call for a file. -/
def Session.changed (s : Session) (file : ℕ) (volume : Volume) (openFile : OpenFile) : Session :=
  { s with volume := volume, files := s.files.set file openFile }

/-- The calls. A call of a handle or a file that is not open is none. -/
def FileCall.run (g : Layout) (flush : Flush) (volumeReadOnly : Bool) (fuel : ℕ)
    (s : Session) (call : FileCall) : Option (Reply × Session) :=
  match call with
  | .read handle bufferSize => do
    let iFile ← s.handles[handle]?
    let file ← s.files[iFile.oFile]?
    let a ← fatIFileAccess g flush fuel volumeReadOnly s.volume iFile file .readData bufferSize []
    return (⟨a.status, a.bufferSize, a.buffer⟩, s.accessed handle iFile.oFile a)
  | .write handle data => do
    let iFile ← s.handles[handle]?
    let file ← s.files[iFile.oFile]?
    let a ← fatIFileAccess g flush fuel volumeReadOnly s.volume iFile file .writeData data.length
      data
    return (⟨a.status, a.bufferSize, []⟩, s.accessed handle iFile.oFile a)
  | .setPosition handle position => do
    let iFile ← s.handles[handle]?
    let file ← s.files[iFile.oFile]?
    let (status, iFile) := fatSetPosition iFile file position
    return (⟨status, 0, []⟩, { s with handles := s.handles.set handle iFile })
  | .expand k expandedSize zeroPool => do
    let file ← s.files[k]?
    let (status, v, file) ← fatExpandOFile g fuel zeroPool s.volume file expandedSize
    return (⟨status, 0, []⟩, s.changed k v file)
  | .truncate k truncatedSize => do
    let file ← s.files[k]?
    let (status, v, o) ← fatTruncateOFile g fuel s.volume file.toOFile truncatedSize
    return (⟨status, 0, []⟩, s.changed k v { file with toOFile := o })

/-- A call of something open: the end of an access is a 64-bit number, a file is expanded to a
larger size, with a buffer, and truncated to a smaller one. -/
def FileCall.Asked (s : Session) : FileCall → Prop
  | .read handle bufferSize =>
    ∃ iFile, s.handles[handle]? = some iFile ∧ iFile.position + bufferSize < 2 ^ 64
  | .write handle data =>
    ∃ iFile, s.handles[handle]? = some iFile ∧ iFile.position + data.length < 2 ^ 64
  | .setPosition handle position => handle < s.handles.length ∧ position < 2 ^ 64
  | .expand k expandedSize zeroPool =>
    ∃ file, s.files[k]? = some file ∧ file.fileSize ≤ expandedSize ∧ zeroPool = true
  | .truncate k truncatedSize =>
    ∃ file, s.files[k]? = some file ∧ truncatedSize ≤ file.fileSize

/-! ## What a session shows -/

/-- **What is stored beside the files** does not touch them: directory entries are in clusters that
are `reserved`. What `FatCleanupVolume` stores can be stored. -/
structure Aside (g : Layout) (reserved : ℕ → Prop) (flush : Flush) : Prop where
  entry : ∀ x v c, g.IsCluster c → entryAt g (flush x v).2.disk c = entryAt g v.disk c
  data : ∀ x v c r, g.IsCluster c → ¬ reserved c → r < g.clusterSize →
    (flush x v).2.disk (g.clusterPos c + r) = v.disk (g.clusterPos c + r)
  diskError : ∀ x v, (flush x v).2.diskError = v.diskError
  clusterCount : ∀ x v, (flush x v).2.clusterCount = v.clusterCount
  nextCluster : ∀ x v, (flush x v).2.nextCluster = v.nextCluster
  status : ∀ v, (flush .volume v).1 = .success

def Session.oFiles (s : Session) : List OFile := s.files.map (·.toOFile)

/-- **A session shows contents.** The clusters of the files are `chains`. -/
structure Holds (g : Layout) (reserved : ℕ → Prop) (s : Session) (chains : List (List ℕ))
    (a : Store) : Prop where
  sound : Sound g s.volume s.oFiles chains
  file : ∀ (k : ℕ) f cs, s.files[k]? = some f → chains[k]? = some cs →
    Seeks g f.toOFile cs ∧ f.isFixedRootDir = false ∧ f.error = .success ∧
      a.contents[k]? = some (content g s.volume.disk f.toOFile cs)
  length : a.contents.length = s.files.length
  reserved : ∀ c, reserved c → g.IsCluster c ∧
    entryAt g s.volume.disk c ≠ fatClusterFree ∧ ∀ cs ∈ chains, c ∉ cs
  handles : a.handles = s.handles
  handle : ∀ iFile ∈ s.handles, iFile.oFile < s.files.length ∧ iFile.position < 2 ^ 64

/-- The session shows contents, for some clusters. -/
def Represents (g : Layout) (reserved : ℕ → Prop) (s : Session) (a : Store) : Prop :=
  ∃ chains, Holds g reserved s chains a

variable {s s' : Session} {a : Store} {chains : List (List ℕ)} {reserved : ℕ → Prop}
  {f f' : OpenFile} {flush : Flush}

theorem Aside.fatCleanupVolume_eq (h : Aside g reserved flush) (v : Volume) (status : EfiStatus) :
    fatCleanupVolume flush v status = (status, (flush .volume v).2) := by
  simp [fatCleanupVolume, h.status]

theorem Session.oFiles_getElem? (hf : s.files[k]? = some f) :
    s.oFiles[k]? = some f.toOFile := by
  rw [Session.oFiles, List.getElem?_map, hf]
  rfl

theorem Holds.body (h : Holds g reserved s chains a) (hf : s.files[k]? = some f)
    (hcs : chains[k]? = some cs) : Body g s.volume.disk f.toOFile cs := by
  obtain ⟨hs, hfi, -⟩ := h.file k f cs hf hcs
  refine ⟨fun ht => ?_, fun _ => ⟨h.sound.file k _ cs (s.oFiles_getElem? hf) hcs, hs⟩⟩
  rw [hfi] at ht
  cases ht

theorem Holds.exists_chain (h : Holds g reserved s chains a) (hf : s.files[k]? = some f) :
    ∃ cs, chains[k]? = some cs :=
  h.sound.exists_chain (List.getElem?_eq_some_iff.mp (s.oFiles_getElem? hf)).1

variable {i : ℕ} {iFile : IFile} {files : List OFile} {data : List UInt8}

theorem Holds.behind (h : Holds g reserved s chains a)
    (hi : s.handles[i]? = some iFile) :
    ∃ f cs, s.files[iFile.oFile]? = some f ∧ chains[iFile.oFile]? = some cs ∧ f.error = .success ∧
      a.contents[iFile.oFile]? = some (content g s.volume.disk f.toOFile cs) ∧
      a.handles[i]? = some iFile := by
  obtain ⟨ho, -⟩ := h.handle iFile (mem_of_getElem? hi)
  obtain ⟨f, hf⟩ : ∃ f, s.files[iFile.oFile]? = some f := ⟨_, List.getElem?_eq_getElem ho⟩
  obtain ⟨cs, hcs⟩ := h.exists_chain hf
  obtain ⟨-, -, he, hc⟩ := h.file _ f cs hf hcs
  exact ⟨f, cs, hf, hcs, he, hc, h.handles ▸ hi⟩

theorem placeOf_cluster (hfi : FileOf g disk o cs) (hf : o.isFixedRootDir = false)
    (hq : q < o.fileSize) :
    ∃ c ∈ cs, ∃ r < g.clusterSize, placeOf g o cs q = g.clusterPos c + r := by
  have hr := lt_of_lt_of_le hq hfi.size_le
  refine ⟨_, mem_of_getElem? (getD_div_mem hr), _, Nat.mod_lt q g.clusterSize_pos, ?_⟩
  exact placeOf_file hf q

theorem content_congr (h : ∀ q < o.fileSize, disk' (placeOf g o cs q) = disk (placeOf g o cs q)) :
    content g disk' o cs = content g disk o cs := by
  refine bytesAt_congr fun q hq => ?_
  rw [zero_add]
  exact h q hq

theorem length_content (g : Layout) (disk : Memory) (o : OFile) (cs : List ℕ) :
    (content g disk o cs).length = o.fileSize := length_bytesAt _ _ _

/-- **One file changes**, and the clusters of the others do not. -/
theorem Holds.update (f' : OpenFile) (h : Holds g reserved s chains a) (hf : s.files[k]? = some f)
    (hcs : chains[k]? = some cs)
    (hs : Sound g v' ((s.oFiles).set k f'.toOFile) (chains.set k cs'))
    (hse : Seeks g f'.toOFile cs') (hfix : f'.isFixedRootDir = false)
    (he : f'.error = .success)
    (hdata : ∀ c r, g.IsCluster c → r < g.clusterSize → c ∉ cs →
      v'.disk (g.clusterPos c + r) = s.volume.disk (g.clusterPos c + r))
    (hre : ∀ c, reserved c → entryAt g v'.disk c ≠ fatClusterFree ∧ c ∉ cs') :
    Holds g reserved (s.changed k v' f') (chains.set k cs')
      { a with contents := a.contents.set k (content g v'.disk f'.toOFile cs') } := by
  have hk := (List.getElem?_eq_some_iff.mp hf).1
  have hkc := (List.getElem?_eq_some_iff.mp hcs).1
  have hka : k < a.contents.length := by
    rw [h.length]
    exact hk
  refine ⟨?_, ?_, ?_, fun c hc => ?_, h.handles, fun iFile hi => ?_⟩
  · rw [Session.oFiles, Session.changed, map_set]
    exact hs
  · intro k' f₁ ds hf₁ hds
    simp only [Session.changed] at hf₁
    rcases getElem?_set_cases hf₁ with ⟨rfl, rfl⟩ | ⟨hkk, hf₁⟩
    · rw [List.getElem?_set_self hkc] at hds
      cases hds
      exact ⟨hse, hfix, he, List.getElem?_set_self hka⟩
    · rw [List.getElem?_set_ne hkk] at hds
      obtain ⟨hs₁, hfi₁, he₁, hco⟩ := h.file k' f₁ ds hf₁ hds
      refine ⟨hs₁, hfi₁, he₁, ?_⟩
      rw [List.getElem?_set_ne hkk, hco]
      have hfi := h.sound.file k' _ ds (s.oFiles_getElem? hf₁) hds
      congr 1
      refine (content_congr fun q hq => ?_).symm
      obtain ⟨c, hc, r, hr, hp⟩ := placeOf_cluster hfi hfi₁ hq
      rw [hp]
      refine hdata c r (hfi.clusters c hc) hr fun hin => ?_
      exact h.sound.disjoint k k' cs ds hkk hcs hds hin hc
  · simp only [Session.changed, length_set]
    exact h.length
  · obtain ⟨hcl, -, hout⟩ := h.reserved c hc
    refine ⟨hcl, (hre c hc).1, fun ds hds => ?_⟩
    rcases mem_or_eq_of_mem_set hds with hds | rfl
    · exact hout ds hds
    · exact (hre c hc).2
  · simp only [Session.changed, length_set]
    exact h.handle iFile hi

theorem Holds.reshaped (f' : OpenFile) (h : Holds g reserved s chains a) (hdata : g.DataFits)
    (hf : s.files[k]? = some f) (hcs : chains[k]? = some cs)
    (hre : Reshaped g s.volume f.toOFile cs v' f'.toOFile cs')
    (hfi : f'.isFixedRootDir = false) (he : f'.error = .success) :
    Holds g reserved (s.changed k v' f') (chains.set k cs')
      { a with contents := a.contents.set k (content g v'.disk f'.toOFile cs') } := by
  obtain ⟨hs, -⟩ := h.file k f cs hf hcs
  have hk : k < s.oFiles.length := (List.getElem?_eq_some_iff.mp (s.oFiles_getElem? hf)).1
  refine h.update f' hf hcs (h.sound.reshaped hk hcs hre) (hre.seeks hs) hfi he
    ?_ ?_
  · intro c r hc hr _
    refine hre.touches.data _ fun hin => ?_
    have hfits := clusterPos_fits hdata hc
    have hb := hdata.behind
    have hen := hin.2
    omega
  · intro c hc
    obtain ⟨hcl, hu, hout⟩ := h.reserved c hc
    have hcs' := hout cs (mem_of_getElem? hcs)
    have hnew : c ∉ cs' := fun hin => by
      rcases hre.fresh c hin with hin | hfree
      · exact hcs' hin
      · exact hu (mem_freeClusters.mp hfree).2
    refine ⟨?_, hnew⟩
    rw [hre.touches.entryAt_eq (not_or.mpr ⟨hcs', hnew⟩) hcl.ne_one]
    exact hu

theorem Sound.congr (h : Sound g v files chains)
    (he : ∀ c, g.IsCluster c → entryAt g v'.disk c = entryAt g v.disk c)
    (her : v'.diskError = v.diskError) (hcnt : v'.clusterCount = v.clusterCount)
    (hnext : v'.nextCluster = v.nextCluster) : Sound g v' files chains := by
  have hfree : freeClusters g v'.disk = freeClusters g v.disk := by
    ext c
    rw [mem_freeClusters, mem_freeClusters]
    refine and_congr_right fun hc => ?_
    rw [he c hc]
  refine ⟨h.length, fun k o cs ho hcs => ?_, h.disjoint, ⟨?_, ?_, ?_, ?_, ?_⟩⟩
  · have hf := h.file k o cs ho hcs
    exact hf.congr fun c hc => he c (hf.clusters c hc)
  · exact her.trans h.counted.diskError
  · rw [hcnt, hfree, h.counted.count]
  · rw [hnext]
    exact h.counted.next_min
  · rw [hnext]
    exact h.counted.next_lt
  · rw [hnext, hfree]
    exact h.counted.next_le

theorem Sound.set_same (h : Sound g v files chains)
    (ho : files[k]? = some o) (hs : SameBody o o') : Sound g v (files.set k o') chains := by
  refine ⟨by rw [length_set, h.length], fun k' o₁ cs ho₁ hcs => ?_, h.disjoint, h.counted⟩
  rcases getElem?_set_cases ho₁ with ⟨rfl, rfl⟩ | ⟨-, ho₁⟩
  · exact (h.file k o cs ho hcs).of_same hs
  · exact h.file k' o₁ cs ho₁ hcs

theorem set_eq_self {α : Type*} {xs : List α} {x : α} (hx : xs[k]? = some x) :
    xs.set k x = xs := by
  obtain ⟨hk, rfl⟩ := List.getElem?_eq_some_iff.mp hx
  exact set_getElem_self hk

theorem content_scattered (hb : Body g disk o cs) (hs : SameBody o o')
    (hsc : Scattered (placeOf g o cs) p data disk disk')
    (hin : p + data.length ≤ o.fileSize) :
    content g disk' o' cs =
      (content g disk o cs).take p ++ data ++ (content g disk o cs).drop (p + data.length) := by
  have hsi := hb.size_le
  have hv : content g disk' o' cs =
      bytesAt (storeBytes (fun q => disk (placeOf g o cs q)) p data) 0 o.fileSize := by
    rw [content, hs.fileSize, hs.placeOf_eq]
    refine bytesAt_congr fun q hq => ?_
    refine hsc.view_eq (n := roomOf g o cs) (fun q' hq' heq => ?_) (by omega)
    exact hb.placeOf_inj hq' (by omega) heq
  have hsp : o.fileSize = p + data.length + (o.fileSize - (p + data.length)) := by omega
  rw [hv, hsp, bytesAt_zero_storeBytes, content, take_bytesAt (by omega),
    drop_bytesAt hin, zero_add]

theorem content_same (hs : SameBody o o') : content g disk o' cs = content g disk o cs := by
  rw [content, content, hs.fileSize, hs.placeOf_eq]

/-- **A file is written.** -/
theorem Holds.written (h : Holds g reserved s chains a) (hdata : g.DataFits)
    (hf : s.files[k]? = some f) (hcs : chains[k]? = some cs)
    (hca : Carried g cs s.volume f v' f')
    (hsc : Scattered (placeOf g f.toOFile cs) p data s.volume.disk v'.disk)
    (hin : p + data.length ≤ f.fileSize) :
    Holds g reserved (s.changed k v' f') chains
      { a with contents := a.contents.set k (content g v'.disk f'.toOFile cs) } := by
  obtain ⟨hse, hfi, he, -⟩ := h.file k f cs hf hcs
  have hb := h.body hf hcs
  have hsi := hb.size_le
  have hfil := (hb.file hfi).1
  have htable : ∀ a, g.InTable a → v'.disk a = s.volume.disk a := by
    intro a ha
    refine hsc.miss a fun i hi heq => ?_
    rw [← heq] at ha
    exact (hb.placeOf_fits hdata (by omega)).1 ha
  have hs : Sound g v' (s.oFiles.set k f'.toOFile) (chains.set k cs) := by
    rw [set_eq_self hcs]
    refine (h.sound.set_same (s.oFiles_getElem? hf) hca.same).congr ?_ ?_ ?_ ?_
    · exact fun c _ => entryAt_congr htable c
    · exact hca.info.diskError
    · exact hca.info.clusterCount
    · exact hca.info.nextCluster
  have hf' := hca.same.isFixedRootDir.trans hfi
  have hre := h.update f' hf hcs hs (hca.body.file hf').2 hf'
    (hca.error.trans he) ?_ ?_
  · rwa [set_eq_self hcs] at hre
  · intro c r hc hr hout
    refine hsc.miss _ fun i hi heq => hout ?_
    obtain ⟨c', hc', r', hr', hp⟩ := placeOf_cluster hfil hfi (q := p + i) (by omega)
    rw [hp] at heq
    obtain ⟨rfl, -⟩ := clusterPos_inj (hfil.clusters c' hc').1 hc.1 hr' hr heq
    exact hc'
  · intro c hc
    obtain ⟨-, hu, hout⟩ := h.reserved c hc
    rw [entryAt_congr htable]
    exact ⟨hu, hout cs (mem_of_getElem? hcs)⟩

theorem Holds.flushed (h : Holds g reserved s chains a) (haside : Aside g reserved flush)
    (x : Stored) : Holds g reserved { s with volume := (flush x s.volume).2 } chains a := by
  refine ⟨?_, fun k f cs hf hcs => ?_, h.length, fun c hc => ?_, h.handles, h.handle⟩
  · refine h.sound.congr ?_ (haside.diskError x _) (haside.clusterCount x _)
      (haside.nextCluster x _)
    exact fun c hc => haside.entry x s.volume c hc
  · obtain ⟨hs, hfi, he, hco⟩ := h.file k f cs hf hcs
    refine ⟨hs, hfi, he, ?_⟩
    have hfil := h.sound.file k _ cs (s.oFiles_getElem? hf) hcs
    rw [hco]
    congr 1
    refine (content_congr fun q hq => ?_).symm
    obtain ⟨c, hc, r, hr, hp⟩ := placeOf_cluster hfil hfi hq
    rw [hp]
    refine haside.data x s.volume c r (hfil.clusters c hc) (fun hre => ?_) hr
    exact (h.reserved c hre).2.2 cs (mem_of_getElem? hcs) hc
  · obtain ⟨hcl, hu, hout⟩ := h.reserved c hc
    refine ⟨hcl, ?_, hout⟩
    rw [haside.entry x s.volume c hcl]
    exact hu

theorem Holds.setFlags (h : Holds g reserved s chains a) (hf : s.files[k]? = some f)
    (dirty archive : Bool) :
    Holds g reserved (s.changed k s.volume { f with dirty := dirty, archive := archive }) chains
      a := by
  obtain ⟨cs, hcs⟩ := h.exists_chain hf
  obtain ⟨hse, hfi, he, hco⟩ := h.file k f cs hf hcs
  have hsa : SameBody f.toOFile { f.toOFile with dirty := dirty } := ⟨rfl, rfl, rfl, rfl⟩
  have hso := h.sound.set_same (s.oFiles_getElem? hf) hsa
  rw [← set_eq_self hcs] at hso
  have hh := h.update { f with dirty := dirty, archive := archive } hf hcs hso hse hfi he
    (fun _ _ _ _ _ => rfl) fun c hc => ⟨(h.reserved c hc).2.1,
      (h.reserved c hc).2.2 cs (mem_of_getElem? hcs)⟩
  rwa [content_same hsa, set_eq_self hcs, set_eq_self hco] at hh

/-- A file is flushed. -/
theorem Holds.fileFlushed (h : Holds g reserved s chains a) (hf : s.files[k]? = some f)
    (haside : Aside g reserved flush) :
    Holds g reserved (s.changed k (fatOFileFlush flush s.volume f).1
      (fatOFileFlush flush s.volume f).2) chains a := by
  unfold fatOFileFlush
  split_ifs with he hd
  · rw [Session.changed, set_eq_self hf]
    exact h
  · dsimp only
    split_ifs
    · exact (h.setFlags hf f.dirty false).flushed haside .dirEnt
    · exact ((h.setFlags hf false false).flushed haside .dirEnt).flushed haside .parents
  · rw [Session.changed, set_eq_self hf]
    exact h.flushed haside .parents

theorem Holds.setHandle (iFile' : IFile)
    (h : Holds g reserved s chains a) (hi : s.handles[i]? = some iFile)
    (hf : iFile'.oFile = iFile.oFile)
    (hpos : iFile'.position < 2 ^ 64) :
    Holds g reserved { s with handles := s.handles.set i iFile' } chains
      { a with handles := a.handles.set i iFile' } := by
  refine ⟨h.sound, h.file, h.length, h.reserved, by rw [h.handles], fun i' hi' => ?_⟩
  rcases mem_or_eq_of_mem_set hi' with hi' | rfl
  · exact h.handle i' hi'
  · rw [hf]
    exact ⟨(h.handle iFile (mem_of_getElem? hi)).1, hpos⟩

/-! ## Sizes that change -/

theorem placeOf_prefix (hf : o.isFixedRootDir = false) (hf' : o'.isFixedRootDir = false)
    (h : cs <+: cs') (hq : q < cs.length * g.clusterSize) :
    placeOf g o' cs' q = placeOf g o cs q := by
  obtain ⟨ds, rfl⟩ := h
  rw [placeOf_file hf, placeOf_file hf', getD_append _ _ _ _ (div_lt_length hq)]

theorem FileOf.not_inTable (h : FileOf g disk o cs) (hdata : g.DataFits)
    (hf : o.isFixedRootDir = false) (hq : q < o.fileSize) :
    ¬ g.InTable (placeOf g o cs q) := by
  obtain ⟨c, hc, r, -, hp⟩ := placeOf_cluster h hf hq
  have hfi := clusterPos_fits hdata (h.clusters c hc)
  have hb := hdata.behind
  intro hin
  have he := hin.2
  omega

theorem content_grown (h : FileOf g disk o cs) (hdata : g.DataFits)
    (hf : o.isFixedRootDir = false) (hf' : o'.isFixedRootDir = false) (hcs : cs <+: cs')
    (hsi : o.fileSize ≤ o'.fileSize) (hd : ∀ a, ¬ g.InTable a → disk' a = disk a) :
    ∃ gap, gap.length = o'.fileSize - o.fileSize ∧
      content g disk' o' cs' = content g disk o cs ++ gap := by
  refine ⟨bytesAt (fun q => disk' (placeOf g o' cs' q)) o.fileSize (o'.fileSize - o.fileSize),
    length_bytesAt _ _ _, ?_⟩
  have hs := bytesAt_add (fun q => disk' (placeOf g o' cs' q)) 0 o.fileSize
    (o'.fileSize - o.fileSize)
  rw [Nat.add_sub_cancel' hsi, zero_add] at hs
  rw [content, hs]
  congr 1
  refine bytesAt_congr fun q hq => ?_
  have hr := lt_of_lt_of_le hq h.size_le
  rw [zero_add, placeOf_prefix hf hf' hcs hr]
  exact hd _ (h.not_inTable hdata hf hq)

/-! ## The calls -/

section Calls

variable (hfit : g.NumbersFit) (htable : g.TableFits) (hdata : g.DataFits)
  (haside : Aside g reserved flush) {volumeReadOnly : Bool}

/-- What a call does: it returns, and does what the specification says. -/
def Conforms (g : Layout) (reserved : ℕ → Prop) (flush : Flush) (volumeReadOnly : Bool)
    (s : Session) (a : Store) (call : FileCall) : Prop :=
  ∃ reply s' a', Yields (fun fuel => call.run g flush volumeReadOnly fuel s) (reply, s') ∧
    FileSpec volumeReadOnly call a reply a' ∧ Represents g reserved s' a'

include hfit htable hdata in
theorem truncate_spec {truncatedSize : ℕ} (h : Holds g reserved s chains a)
    (hf : s.files[k]? = some f) (hs : truncatedSize ≤ f.fileSize) :
    Conforms g reserved flush volumeReadOnly s a (.truncate k truncatedSize) := by
  obtain ⟨cs, hcs⟩ := h.exists_chain hf
  obtain ⟨-, hfi, he, hco⟩ := h.file k f cs hf hcs
  have hfil := h.sound.file k _ cs (s.oFiles_getElem? hf) hcs
  obtain ⟨v', o', cs', hy, hr, hnew, hp⟩ :=
    fatTruncateOFile_spec hfit htable hfil h.sound.counted (fatSizeToClusters_mono hs)
  have hf' := hr.isFixedRootDir.trans hfi
  have hh := h.reshaped { f with toOFile := o' } hdata hf hcs hr hf' he
  have hc : content g v'.disk o' cs' =
      (content g s.volume.disk f.toOFile cs).take truncatedSize := by
    rw [content, content, take_bytesAt hs, ← hnew]
    refine bytesAt_congr fun q hq => ?_
    rw [zero_add, ← placeOf_prefix hf' hfi hp (lt_of_lt_of_le hq hr.file.size_le)]
    exact hr.touches.data _ (hfil.not_inTable hdata hfi (by omega))
  rw [hc] at hh
  refine ⟨⟨.success, 0, []⟩, s.changed k v' { f with toOFile := o' }, _, ?_,
    .truncate hco, _, hh⟩
  simp only [FileCall.run, hf, bind_eq_bind, bind_some]
  exact hy.bind (steady_fatShrinkEof ..) (steady_const _) ⟨0, rfl⟩

include hfit htable hdata in
/-- **`FatGrowEof`** in a session: the bytes behind the old end are any bytes. -/
theorem grow_spec {size : ℕ} (h : Holds g reserved s chains a) (hf : s.files[k]? = some f)
    (hcs : chains[k]? = some cs) (hsi : f.fileSize ≤ size) :
    ∃ status v₁ o₁, Yields (fun fuel => fatGrowEof g fuel s.volume f.toOFile size)
        (status, v₁, o₁) ∧
      ((status = .success ∧ o₁.fileSize = size ∧ ∃ cs' gap, gap.length = size - f.fileSize ∧
          content g v₁.disk o₁ cs' = content g s.volume.disk f.toOFile cs ++ gap ∧
          Holds g reserved (s.changed k v₁ { f with toOFile := o₁ }) (chains.set k cs')
            { a with contents :=
              a.contents.set k (content g s.volume.disk f.toOFile cs ++ gap) }) ∨
        (status ≠ .success ∧
          (status = .volumeFull ∧ f.fileSize < size ∨ status = .unsupported ∧ 0xFFFFFFFF < size) ∧
          Holds g reserved (s.changed k v₁ { f with toOFile := o₁ }) chains a)) := by
  obtain ⟨-, hfi, he, hc⟩ := h.file k f cs hf hcs
  have hfil := h.sound.file k _ cs (s.oFiles_getElem? hf) hcs
  obtain ⟨status, v₁, o₁, cs', hy, hre, hr⟩ :=
    fatGrowEof_spec hfit htable hfil h.sound.counted fun _ => fatSizeToClusters_mono hsi
  have hf' := hre.isFixedRootDir.trans hfi
  have hh := h.reshaped { f with toOFile := o₁ } hdata hf hcs hre hf' he
  refine ⟨status, v₁, o₁, hy, ?_⟩
  by_cases hs : status = .success
  · rw [GrownTo, if_pos hs] at hr
    obtain ⟨hnew, hp⟩ := hr
    obtain ⟨gap, hga, hg⟩ := content_grown hfil hdata hfi hf' hp
      (hsi.trans_eq hnew.symm) hre.touches.data
    rw [hg] at hh
    rw [hnew] at hga
    exact .inl ⟨hs, hnew, cs', gap, hga, hg, hh⟩
  · rw [GrownTo, if_neg hs] at hr
    obtain ⟨rfl, hnew, hst⟩ := hr
    obtain ⟨gap, hga, hg⟩ := content_grown hfil hdata hfi hf' prefix_rfl
      (le_of_eq hnew.symm) hre.touches.data
    have hnil : gap = [] := length_eq_zero_iff.mp (by omega)
    rw [hg, hnil, append_nil, set_eq_self hc, set_eq_self hcs] at hh
    refine .inr ⟨hs, hst.imp_left (And.imp_right fun hlt => ?_), hh⟩
    exact lt_of_not_ge fun hle => absurd (fatSizeToClusters_mono hle) (not_le.mpr hlt)

include hfit htable hdata in
theorem expand_spec {expandedSize : ℕ} (h : Holds g reserved s chains a)
    (hf : s.files[k]? = some f) (hsi : f.fileSize ≤ expandedSize) :
    Conforms g reserved flush volumeReadOnly s a (.expand k expandedSize true) := by
  obtain ⟨cs, hcs⟩ := h.exists_chain hf
  obtain ⟨-, -, -, hco⟩ := h.file k f cs hf hcs
  have hk := (List.getElem?_eq_some_iff.mp hf).1
  have hfr := length_content g s.volume.disk f.toOFile cs
  obtain ⟨status, v₁, o₁, hy, hr⟩ := grow_spec hfit htable hdata h hf hcs hsi
  suffices hexp : ∃ v' f' a', Yields
      (fun fuel => fatExpandOFile g fuel true s.volume f expandedSize) (status, v', f') ∧
      FileSpec volumeReadOnly (.expand k expandedSize true) a ⟨status, 0, []⟩ a' ∧
      Represents g reserved (s.changed k v' f') a' by
    obtain ⟨v', f', a', hex, hsp, hre⟩ := hexp
    refine ⟨⟨status, 0, []⟩, s.changed k v' f', a', ?_, hsp, hre⟩
    simp only [FileCall.run, hf, bind_eq_bind, bind_some]
    exact hex.bind (steady_fatExpandOFile ..) (steady_const _) ⟨0, rfl⟩
  rcases hr with ⟨rfl, hnew, cs', gap, hga, hg, hh⟩ | ⟨hfa, hst, hh⟩
  · have hf₁ : (s.changed k v₁ { f with toOFile := o₁ }).files[k]? =
        some { f with toOFile := o₁ } := List.getElem?_set_self hk
    have hcs₁ : (chains.set k cs')[k]? = some cs' :=
      List.getElem?_set_self (List.getElem?_eq_some_iff.mp hcs).1
    have hb := hh.body hf₁ hcs₁
    -- the new bytes are zero
    obtain ⟨v', f', hz, hc, hs⟩ :=
      fatWriteZeroPool_spec htable hdata hb (p := f.fileSize) (by simp only; omega)
    have hl : f.fileSize + (List.replicate (o₁.fileSize - f.fileSize) (0 : UInt8)).length =
        o₁.fileSize := by
      rw [length_replicate]
      omega
    have hw := hh.written hdata hf₁ hcs₁ hc hs (le_of_eq hl)
    have hn : content g v'.disk f'.toOFile cs' =
        content g s.volume.disk f.toOFile cs ++
          List.replicate (expandedSize - (content g s.volume.disk f.toOFile cs).length) 0 := by
      rw [content_scattered hb hc.same hs (le_of_eq hl), hl]
      simp only [Session.changed]
      rw [hg, take_left' hfr, drop_eq_nil_of_le, append_nil, hfr, hnew]
      rw [length_append, hga, hfr]
      omega
    refine ⟨v', f', _, ?_, .expand hco, chains.set k cs', ?_⟩
    · refine hy.bind (steady_fatGrowEof ..) ?_ ?_
      · simp only [isError_success, false_eq_true, if_false]
        exact steady_fatWriteZeroPool ..
      · simp only [isError_success, false_eq_true, if_false]
        exact hz
    · rw [hn] at hw
      simp only [Session.changed, set_set] at hw ⊢
      exact hw
  · have he := isError_eq_true.mpr hfa
    refine ⟨v₁, { f with toOFile := o₁ }, a, ?_,
      .expandFull hco (by rwa [hfr]), chains, hh⟩
    refine hy.bind (steady_fatGrowEof ..) ?_ ⟨0, ?_⟩
    · simp only [he, if_true]
      exact steady_const _
    · simp only [he, if_true]

variable {bufferSize : ℕ}

/-- `FatIFileAccess` behind a part of the file that was accessed. -/
theorem yields_accessDone {run : ℕ → Option (EfiStatus × ℕ × List UInt8 × Volume × OpenFile)}
    {buffer : List UInt8}
    (h : Yields run (.success, n, buffer, v', f')) (he : iFile.position + n < 2 ^ 64) :
    Yields (fun fuel => (run fuel).map fun (status, bufferSize, buffer, v, file) =>
        accessDone flush iFile status bufferSize buffer v file)
      ⟨.success, n, buffer, v', f', iFile.advance n⟩ := by
  have hm := h.map fun (status, bufferSize, buffer, v, file) =>
    accessDone flush iFile status bufferSize buffer v file
  simp only [accessDone, isError_success, false_eq_true, if_false,
    add64_of_lt he] at hm
  exact hm

include htable hdata in
theorem read_spec (h : Holds g reserved s chains a)
    (hi : s.handles[i]? = some iFile) (hen : iFile.position + bufferSize < 2 ^ 64) :
    Conforms g reserved flush volumeReadOnly s a (.read i bufferSize) := by
  obtain ⟨f, cs, hf, hcs, he, hco, ha⟩ := h.behind hi
  have hbo := h.body hf hcs
  have hro := hbo.room_lt hdata
  have hsi := hbo.size_le
  have hfr := length_content g s.volume.disk f.toOFile cs
  suffices hac : ∃ r a', Yields (fun fuel => fatIFileAccess g flush fuel volumeReadOnly s.volume
      iFile f .readData bufferSize []) r ∧
      FileSpec volumeReadOnly (.read i bufferSize) a ⟨r.status, r.bufferSize, r.buffer⟩ a' ∧
      Represents g reserved (s.accessed i iFile.oFile r) a' by
    obtain ⟨r, a', hy, hsp, hr⟩ := hac
    refine ⟨⟨r.status, r.bufferSize, r.buffer⟩, s.accessed i iFile.oFile r, a', ?_, hsp, hr⟩
    simp only [FileCall.run, hi, hf, bind_eq_bind, bind_some]
    exact hy.bind (steady_fatIFileAccess ..) (steady_const _) ⟨0, rfl⟩
  by_cases hbe : f.fileSize < iFile.position
  · refine ⟨⟨.deviceError, bufferSize, [], s.volume, f, iFile⟩, a, ⟨0, ?_⟩,
      .readBehind ha hco (hfr.trans_lt hbe), chains, ?_⟩
    · simp [fatIFileAccess, he, hbe]
    · rw [Session.accessed, set_eq_self hf, set_eq_self hi]
      exact h
  · obtain ⟨n, hn⟩ : ∃ n, min bufferSize (f.fileSize - iFile.position) = n := ⟨_, rfl⟩
    have hin : iFile.position ≤ f.fileSize := Nat.le_of_not_lt hbe
    have he' : iFile.position + n ≤ f.fileSize := by omega
    obtain ⟨v', f', hy, hc, hd⟩ := fatAccessOFile_read htable hdata hbo he' []
    have hb : ((content g s.volume.disk f.toOFile cs).drop iFile.position).take bufferSize =
        bytesAt (fun q => s.volume.disk (placeOf g f.toOFile cs q)) iFile.position
          (min bufferSize (f.fileSize - iFile.position)) := by
      rw [content, drop_bytesAt hin, zero_add, take_eq_take_min, length_bytesAt]
      exact take_bytesAt (min_le_right _ _)
    have hl : (((content g s.volume.disk f.toOFile cs).drop iFile.position).take
        bufferSize).length = n := by
      rw [hb, length_bytesAt, hn]
    rw [hn] at hb
    rw [nil_append, ← hb] at hy
    -- nothing but the positions has changed
    have hs : Scattered (placeOf g f.toOFile cs) 0 [] s.volume.disk v'.disk := by
      rw [hd]
      exact scattered_nil _ _ _
    have hh := h.written hdata hf hcs hc hs (Nat.zero_le _)
    rw [content_same hc.same, hd, set_eq_self hco] at hh
    have hsp : FileSpec volumeReadOnly (.read i bufferSize) a _ _ :=
      .read ha hco (hin.trans_eq hfr.symm)
    rw [hl] at hsp
    refine ⟨⟨.success, n, ((content g s.volume.disk f.toOFile cs).drop iFile.position).take
      bufferSize, v', f', iFile.advance n⟩, _, ?_, hsp, chains, ?_⟩
    · have had : add64 iFile.position bufferSize = iFile.position + bufferSize := add64_of_lt hen
      by_cases hgt : f.fileSize < iFile.position + bufferSize
      · -- the read ends with the file
        have hcut : sub64 bufferSize (sub64 (iFile.position + bufferSize) f.fileSize) = n := by
          rw [sub64_of_le hen hgt.le, sub64_of_le (by omega) (by omega)]
          omega
        simp only [fatIFileAccess, he, hbe, accessFile, had, if_pos hgt, hcut]
        exact yields_accessDone hy (by omega)
      · obtain rfl : bufferSize = n := by omega
        simp only [fatIFileAccess, he, hbe, accessFile, had, if_neg hgt]
        exact yields_accessDone hy (by omega)
    · exact hh.setHandle (iFile.advance n) hi rfl (by
        simp only [IFile.advance]
        omega)

theorem overwrite_grown {c gap : List UInt8} (hg : gap.length = p + data.length - c.length)
    (hlt : c.length < p + data.length) :
    ∃ gap', gap'.length = p - c.length ∧
      (c ++ gap).take p ++ data ++ (c ++ gap).drop (p + data.length) =
        overwrite c p gap' data := by
  refine ⟨gap.take (p - c.length), ?_, ?_⟩
  · rw [length_take]
    omega
  · have hf : (c ++ gap.take (p - c.length)).take p = (c ++ gap).take p := by
      rw [take_append, take_append, take_take, Nat.min_self]
    rw [overwrite, hf, drop_eq_nil_of_le, drop_eq_nil_of_le (le_of_lt hlt)]
    rw [length_append]
    omega

include htable hdata in
theorem write_inside (h : Holds g reserved s chains a)
    (hf : s.files[k]? = some f) (hcs : chains[k]? = some cs)
    (hin : p + data.length ≤ f.fileSize) :
    ∃ rest v' f', Yields (fun fuel => fatAccessOFile g fuel s.volume f .writeData p data.length
        data) (.success, data.length, rest, v', f') ∧
      Holds g reserved (s.changed k v' f') chains
        { a with
          contents := a.contents.set k
            ((content g s.volume.disk f.toOFile cs).take p ++ data ++
              (content g s.volume.disk f.toOFile cs).drop (p + data.length)) } := by
  have hb := h.body hf hcs
  obtain ⟨rest, v', f', hy, hc, hs⟩ :=
    fatAccessOFile_write htable hdata hb hin (le_refl data.length)
  rw [take_length] at hs
  have hh := h.written hdata hf hcs hc hs hin
  rw [content_scattered hb hc.same hs hin] at hh
  exact ⟨rest, v', f', hy, hh⟩

include hfit htable hdata haside in
theorem write_spec (h : Holds g reserved s chains a)
    (hi : s.handles[i]? = some iFile) (hen : iFile.position + data.length < 2 ^ 64) :
    Conforms g reserved flush volumeReadOnly s a (.write i data) := by
  obtain ⟨f, cs, hf, hcs, her, hc, ha⟩ := h.behind hi
  have hfr := length_content g s.volume.disk f.toOFile cs
  suffices hac : ∃ r a', Yields (fun fuel => fatIFileAccess g flush fuel volumeReadOnly s.volume
      iFile f .writeData data.length data) r ∧
      FileSpec volumeReadOnly (.write i data) a ⟨r.status, r.bufferSize, []⟩ a' ∧
      Represents g reserved (s.accessed i iFile.oFile r) a' by
    obtain ⟨r, a', hy, hsp, hrep⟩ := hac
    refine ⟨⟨r.status, r.bufferSize, []⟩, s.accessed i iFile.oFile r, a', ?_, hsp, hrep⟩
    simp only [FileCall.run, hi, hf, bind_eq_bind, bind_some]
    exact hy.bind (steady_fatIFileAccess ..) (steady_const _) ⟨0, rfl⟩
  have hr : ∀ status, Represents g reserved
      (s.accessed i iFile.oFile ⟨status, data.length, data, s.volume, f, iFile⟩) a := by
    intro status
    rw [Session.accessed, set_eq_self hf, set_eq_self hi]
    exact ⟨chains, h⟩
  cases hv : volumeReadOnly with
  | true =>
    refine ⟨⟨.writeProtected, data.length, data, s.volume, f, iFile⟩, a, ⟨0, ?_⟩,
      .writeProtected ha rfl, hr _⟩
    simp [fatIFileAccess, her]
  | false =>
  cases hro : iFile.readOnly with
  | true =>
    refine ⟨⟨.accessDenied, data.length, data, s.volume, f, iFile⟩, a, ⟨0, ?_⟩,
      .accessDenied ha rfl hro, hr _⟩
    simp [fatIFileAccess, her, hro]
  | false =>
  have had : add64 iFile.position data.length = iFile.position + data.length := add64_of_lt hen
  have hac : ∀ fuel, fatIFileAccess g flush fuel false s.volume iFile f .writeData data.length
      data = accessFile g flush fuel s.volume iFile f .writeData data.length data := by
    simp [fatIFileAccess, her, hro]
  simp only [hac, accessFile, had]
  by_cases hgr : f.fileSize < iFile.position + data.length
  · simp only [if_pos hgr]
    obtain ⟨status, v₁, o₁, hy, hre⟩ :=
      grow_spec hfit htable hdata h hf hcs (le_of_lt hgr)
    rcases hre with ⟨rfl, hnew, cs', gap, hga, hg, hh⟩ | ⟨hfa, hs, hh⟩
    · have hf₁ : (s.changed iFile.oFile v₁ { f with toOFile := o₁ }).files[iFile.oFile]? =
          some { f with toOFile := o₁ } := List.getElem?_set_self (List.getElem?_eq_some_iff.mp hf).1
      have hcs₁ : (chains.set iFile.oFile cs')[iFile.oFile]? = some cs' :=
        List.getElem?_set_self (List.getElem?_eq_some_iff.mp hcs).1
      obtain ⟨rest, v', f', hwr, hw⟩ :=
        write_inside htable hdata hh hf₁ hcs₁ (le_of_eq hnew.symm)
      simp only [Session.changed, set_set] at hwr hw
      rw [← hfr] at hga hgr
      obtain ⟨gap', hg', ho⟩ := overwrite_grown hga hgr
      rw [hg, ho] at hw
      refine ⟨⟨.success, data.length, rest, v', f', iFile.advance data.length⟩, _, ?_,
        .write ha hc rfl hro hg', chains.set iFile.oFile cs', ?_⟩
      · refine hy.bind (steady_fatGrowEof ..) ?_ ?_
        · simp only [isError_success, false_eq_true, if_false]
          exact (steady_fatAccessOFile ..).map _
        · simp only [isError_success, false_eq_true, if_false]
          exact yields_accessDone hwr hen
      · exact hw.setHandle (iFile.advance data.length) hi rfl hen
    · have he := isError_eq_true.mpr hfa
      have hh' := hh.fileFlushed (List.getElem?_set_self (List.getElem?_eq_some_iff.mp hf).1) haside
      obtain ⟨⟨v₂, f₂⟩, hfl⟩ : ∃ r, fatOFileFlush flush v₁ { f with toOFile := o₁ } = r := ⟨_, rfl⟩
      simp only [Session.changed, set_set, hfl] at hh'
      refine ⟨⟨status, 0, data, (flush .volume v₂).2, f₂, iFile⟩, a, ?_,
        .writeFull ha hc rfl hro (hfr.trans_lt hgr) (hs.imp_left And.left), chains, ?_⟩
      · refine hy.bind (steady_fatGrowEof ..) ?_ ⟨0, ?_⟩
        · simp only [he, if_true]
          exact steady_const _
        · simp only [he, if_true, hfl, haside.fatCleanupVolume_eq]
      · rw [Session.accessed, set_eq_self hi]
        exact hh'.flushed haside .volume
  · simp only [if_neg hgr]
    obtain ⟨rest, v', f', hwr, hw⟩ :=
      write_inside htable hdata h hf hcs (Nat.le_of_not_lt hgr)
    have hga : ([] : List UInt8).length =
        iFile.position - (content g s.volume.disk f.toOFile cs).length := by
      rw [hfr, length_nil]
      omega
    have hsp : FileSpec false (.write i data) a _ _ := .write ha hc rfl hro hga
    rw [overwrite, append_nil] at hsp
    refine ⟨⟨.success, data.length, rest, v', f', iFile.advance data.length⟩, _, ?_, hsp,
      chains, ?_⟩
    · exact yields_accessDone hwr hen
    · exact hw.setHandle (iFile.advance data.length) hi rfl hen

theorem setPosition_spec {position : ℕ} (h : Holds g reserved s chains a)
    (hdata : g.DataFits) (hi : i < s.handles.length) (hpos : position < 2 ^ 64) :
    Conforms g reserved flush volumeReadOnly s a (.setPosition i position) := by
  obtain ⟨iFile, hg⟩ : ∃ iFile, s.handles[i]? = some iFile := ⟨_, List.getElem?_eq_getElem hi⟩
  obtain ⟨f, cs, hf, hcs, he, hc, ha⟩ := h.behind hg
  have hb := h.body hf hcs
  have hr := hb.room_lt hdata
  have hs := hb.size_le
  have hfr := length_content g s.volume.disk f.toOFile cs
  refine ⟨_, { s with handles := s.handles.set i { iFile with
    position := if position = 2 ^ 64 - 1 then f.fileSize else position } }, _, ⟨0, ?_⟩,
    .setPosition ha hc, chains, ?_⟩
  · simp [FileCall.run, hg, hf, fatSetPosition, he]
  · rw [hfr]
    refine h.setHandle _ hg rfl ?_
    simp only
    split <;> omega

include hfit htable hdata haside in
/-- **What one call does.** -/
theorem call_spec (h : Represents g reserved s a) {call : FileCall} (ha : call.Asked s) :
    Conforms g reserved flush volumeReadOnly s a call := by
  obtain ⟨chains, hh⟩ := h
  cases call with
  | read i bufferSize =>
    obtain ⟨iFile, hi, he⟩ := ha
    exact read_spec htable hdata hh hi he
  | write i data =>
    obtain ⟨iFile, hi, he⟩ := ha
    exact write_spec hfit htable hdata haside hh hi he
  | setPosition i position => exact setPosition_spec hh hdata ha.1 ha.2
  | expand k expandedSize zeroPool =>
    obtain ⟨f, hf, hs, rfl⟩ := ha
    exact expand_spec hfit htable hdata hh hf hs
  | truncate k truncatedSize =>
    obtain ⟨f, hf, hs⟩ := ha
    exact truncate_spec hfit htable hdata hh hf hs

end Calls

/-! ## Runs -/

/-- Calls one after another, with their replies, that are as asked. -/
inductive FileRun (g : Layout) (flush : Flush) (volumeReadOnly : Bool) :
    Session → List (FileCall × Reply) → Session → Prop
  | nil (s : Session) : FileRun g flush volumeReadOnly s [] s
  | step {s s' s'' : Session} {trace : List (FileCall × Reply)} {call : FileCall} {reply : Reply}
      (hrun : FileRun g flush volumeReadOnly s trace s') (hasked : call.Asked s')
      (hcall : Yields (fun fuel => call.run g flush volumeReadOnly fuel s') (reply, s'')) :
      FileRun g flush volumeReadOnly s (trace ++ [(call, reply)]) s''

/-- Calls one after another, with their replies, on byte strings. -/
inductive SpecRun (volumeReadOnly : Bool) : Store → List (FileCall × Reply) → Store → Prop
  | nil (a : Store) : SpecRun volumeReadOnly a [] a
  | step {a a' a'' : Store} {trace : List (FileCall × Reply)} {call : FileCall} {reply : Reply}
      (hrun : SpecRun volumeReadOnly a trace a')
      (hcall : FileSpec volumeReadOnly call a' reply a'') :
      SpecRun volumeReadOnly a (trace ++ [(call, reply)]) a''

theorem steady_fileCall (g : Layout) (flush : Flush) (volumeReadOnly : Bool)
    (s : Session) (call : FileCall) :
    Steady fun fuel => call.run g flush volumeReadOnly fuel s := by
  cases call with
  | read | write =>
    refine (steady_const _).bind fun iFile => (steady_const _).bind fun file => ?_
    exact (steady_fatIFileAccess ..).bind fun _ => steady_const _
  | setPosition i position => exact steady_const _
  | expand k expandedSize zeroPool =>
    exact (steady_const _).bind fun file => (steady_fatExpandOFile ..).bind fun _ => steady_const _
  | truncate k truncatedSize =>
    exact (steady_const _).bind fun file => (steady_fatShrinkEof ..).bind fun _ => steady_const _

theorem Represents.run (hfit : g.NumbersFit) (htable : g.TableFits) (hdata : g.DataFits)
    (haside : Aside g reserved flush) {volumeReadOnly : Bool} {trace : List (FileCall × Reply)}
    (hr : FileRun g flush volumeReadOnly s trace s') (h : Represents g reserved s a) :
    ∃ a', SpecRun volumeReadOnly a trace a' ∧ Represents g reserved s' a' := by
  induction hr with
  | nil => exact ⟨a, .nil a, h⟩
  | step hr ha hca ih =>
    obtain ⟨a', hs, hre⟩ := ih
    obtain ⟨reply, s₁, a'', hy, hc, hr'⟩ :=
      call_spec hfit htable hdata haside hre ha
    cases hca.unique (steady_fileCall ..) hy
    exact ⟨a'', .step hs hc, hr'⟩

end Edk2.Fat

import Edk2.Hand.Consistency

/-!
# Installing several interfaces

`CoreInstallMultipleProtocolInterfaces` installs pairs of a protocol and an interface on a handle;
if one of them fails, those before it are uninstalled again. Nobody can have opened them in the
meantime but `CoreHandleProtocol`, whose entries do not keep an interface from being uninstalled.

## Main results

* `Added.uninstallAll`: what was added can be taken off again
* `installMultiple_restores`: a failed call leaves the triples as they were
-/

namespace Edk2.Hand

open List Option HandleDb
open Function (update update_self update_of_ne)

/-! ## The functions -/

/-- `gEfiDevicePathProtocolGuid`. -/
def devicePathProtocolGuid : EfiGuid :=
  efiGuid 0x09576e91 0x6d3f 0x11d2 [0x8e, 0x39, 0x00, 0xa0, 0xc9, 0x69, 0x72, 0x3b]

/-- A device path in memory: the nodes of its first instance, all of its nodes without the end, and
whether it has more than one instance. -/
structure DevicePath where
  firstInstance : List UInt8
  nodes : List UInt8
  multiInstance : Bool

/-- The results of the allocations of `CoreLocateDevicePath`: the buffer for the handles, and the
open entry of `CoreHandleProtocol` for each them. -/
structure LocateAlloc where
  buffer : Bool
  openData : ℕ → Bool

/-- The handles that `CoreLocateHandleBuffer` finds for a protocol. -/
def locateHandles (db : HandleDb) (protocol : EfiGuid) : List ℕ :=
  if protocol ∈ db.entries then
    ((db.byProtocol protocol).filterMap fun p =>
      (db.prot p).map ProtocolInterface.handle).eraseDups
  else []

/-- The loop of `CoreLocateDevicePath`: `BestMatch` and `BestDevice`, if there is a match. -/
def matchLoop (path : ℕ → DevicePath) (source : List UInt8) (openData : ℕ → Bool) :
    List ℕ → HandleDb → Option (ℕ × ℕ) → Option (HandleDb × Option (ℕ × ℕ))
  | [], db, best => some (db, best)
  | h :: hs, db, best =>
    (coreHandleProtocol db h devicePathProtocolGuid (openData h)).bind fun r =>
      let nodes := (path (r.interface.getD 0)).nodes
      if r.status.isError ∨ ¬ nodes.isPrefixOf source then matchLoop path source openData hs r.db best
      else if best.any fun b => b.1 = nodes.length then none
      else if best.all fun b => b.1 < nodes.length then
        matchLoop path source openData hs r.db (some (nodes.length, h))
      else matchLoop path source openData hs r.db best

/-- `CoreLocateDevicePath` for the device path protocol: the length of the best match and its
handle, if there is one. -/
def coreLocateDevicePath (path : ℕ → DevicePath) (db : HandleDb) (devicePath : ℕ)
    (alloc : LocateAlloc) : Option (HandleDb × Option (ℕ × ℕ)) :=
  if devicePath = 0 ∨ alloc.buffer = false then some (db, none)
  else
    matchLoop path (path devicePath).firstInstance alloc.openData
      (locateHandles db devicePathProtocolGuid) db none

/-- A pair to be installed, with the results of allocations, and what the callbacks do if it is
uninstalled again. -/
structure InstallArg where
  protocol : EfiGuid
  interface : ℕ
  locate : LocateAlloc
  alloc : InstallAlloc
  calls : UninstallCalls

/-- The check for a device path that has been added already. -/
def duplicateDevicePath (path : ℕ → DevicePath) (db : HandleDb) (arg : InstallArg) :
    Option (HandleDb × Bool) :=
  if arg.protocol = devicePathProtocolGuid then
    (coreLocateDevicePath path db arg.interface arg.locate).map fun (db, best) =>
      (db, best.any fun b => b.2 ≠ 0 ∧ b.1 = (path arg.interface).firstInstance.length ∧
        (path arg.interface).multiInstance = false)
  else some (db, false)

/-- The result of the first loop, with `Index`. -/
structure LoopResult where
  status : EfiStatus
  handle : ℕ
  db : HandleDb
  index : ℕ

/-- The loop that installs the pairs. -/
def installLoop (path : ℕ → DevicePath) (db : HandleDb) (h : ℕ) :
    List InstallArg → ℕ → Option LoopResult
  | [], index => some ⟨.success, h, db, index⟩
  | arg :: args, index =>
    (duplicateDevicePath path db arg).bind fun (db, duplicate) =>
      if duplicate then some ⟨.alreadyStarted, h, db, index + 1⟩
      else
        (installNative db h arg.protocol arg.interface arg.alloc).bind fun r =>
          if r.status.isError then some ⟨r.status, r.handle, r.db, index + 1⟩
          else installLoop path r.db r.handle args (index + 1)

/-- The loop that uninstalls pairs that were installed. -/
def uninstallAll (db : HandleDb) (h : ℕ) : List InstallArg → Option HandleDb
  | [] => some db
  | arg :: args =>
    (coreUninstallProtocolInterface db h (some arg.protocol) arg.interface arg.calls).bind fun r =>
      uninstallAll r.2 h args

def coreInstallMultipleProtocolInterfaces (path : ℕ → DevicePath) (db : HandleDb)
    (handle : Option ℕ) (args : List InstallArg) : Option InstallResult :=
  match handle with
  | none => some ⟨.invalidParameter, 0, db⟩
  | some h =>
    (installLoop path db h args 0).bind fun r =>
      if r.status.isError then
        (uninstallAll r.db r.handle (args.take (r.index - 1))).map fun db => ⟨r.status, h, db⟩
      else some ⟨r.status, r.handle, r.db⟩

/-! ## Triples -/

/-- The handle, the protocol and the interface of what is at an address. -/
def HandleDb.view (db : HandleDb) (p : ℕ) : Option (ℕ × EfiGuid × ℕ) :=
  (db.prot p).map ProtocolInterface.links

/-- **The handle carries the interface of the protocol.** -/
def Carries (db : HandleDb) (h : ℕ) (g : EfiGuid) (i : ℕ) : Prop := ∃ p, db.view p = some (h, g, i)

/-- All open entries of the interface are those of `CoreHandleProtocol`. -/
def Idle (db : HandleDb) (p : ℕ) : Prop :=
  ∀ r, db.prot p = some r → ∀ d ∈ r.openList, d.attributes = openByHandleProtocol

/-- An edit of open entries that keeps idle interfaces idle. -/
structure HandleEdit (db db' : HandleDb) : Prop where
  edit : OpenEdit db db'
  idle : ∀ p, Idle db p → Idle db' p

variable {arg : InstallArg}

section Triples

variable {db db₁ db' : HandleDb} {h p i : ℕ} {g : EfiGuid} {r : ProtocolInterface}

theorem view_eq_some {l : ℕ × EfiGuid × ℕ} :
    db.view p = some l ↔ ∃ r, db.prot p = some r ∧ r.links = l := map_eq_some_iff

theorem view_eq_none : db.view p = none ↔ db.prot p = none := Option.map_eq_none_iff

theorem SameLinks.view_eq (hl : SameLinks db db') : db'.view = db.view :=
  funext fun p => hl.prot p

theorem view_addInterface (db : HandleDb) (p h : ℕ) (g : EfiGuid) (i : ℕ) :
    (db.addInterface p h g i).view = update db.view p (some (h, g, i)) := by
  funext p'
  show (update db.prot p _ p').map _ = _
  by_cases hp : p' = p
  · subst hp
    rw [update_self, update_self]
    rfl
  · rw [update_of_ne hp, update_of_ne hp]
    rfl

theorem view_removeInterface (db : HandleDb) (p h : ℕ) (r : ProtocolInterface) :
    ((db.removeInterface p h r).freeHandle h).view = update db.view p none := by
  funext p'
  rw [view, prot_freeHandle]
  show (update db.prot p none p').map _ = _
  by_cases hp : p' = p
  · subst hp
    rw [update_self, update_self]
    rfl
  · rw [update_of_ne hp, update_of_ne hp]
    rfl

theorem Linked.valid_of_view (hdb : Linked db) (hv : db.view p = some (h, g, i)) : db.Valid h := by
  obtain ⟨r, hp, hl⟩ := view_eq_some.mp hv
  have hh : r.handle = h := congrArg Prod.fst hl
  have hmem := (hdb.mem_handleList h).mpr (ne_nil_of_mem (hh ▸ hdb.byHandle.mem hp))
  exact ⟨fun hz => hdb.zero_notMem (hz ▸ hmem), hmem⟩

theorem Linked.find_of_view (hdb : Linked db) (hv : db.view p = some (h, g, i)) :
    ∃ p' r', coreFindProtocolInterface db h g i = some (p', r') := by
  obtain ⟨r, hp, hl⟩ := view_eq_some.mp hv
  have hh : r.handle = h := congrArg Prod.fst hl
  have hpr : r.protocol = g := congrArg (fun l => l.2.1) hl
  have hin : r.interface = i := congrArg (fun l => l.2.2) hl
  have hmem : p ∈ db.protocols h := hh ▸ hdb.byHandle.mem hp
  cases hf : coreFindProtocolInterface db h g i with
  | none =>
    rw [coreFindProtocolInterface, if_pos (hpr ▸ hdb.mem_entries p r hp)] at hf
    have hn := find_eq_none hf hmem hp
    simp [hpr, hin] at hn
  | some found => exact ⟨found.1, found.2, rfl⟩

theorem Linked.view_of_find (hdb : Linked db)
    (hf : coreFindProtocolInterface db h g i = some (p, r)) : db.view p = some (h, g, i) := by
  obtain ⟨hmem, hp, hin, hpr⟩ := coreFindProtocolInterface_eq_some hf
  refine view_eq_some.mpr ⟨r, hp, ?_⟩
  rw [ProtocolInterface.links, hdb.byHandle.key_eq hp hmem, hpr, hin]

theorem HandleEdit.refl (db : HandleDb) : HandleEdit db db := ⟨.refl db, fun _ => id⟩

theorem HandleEdit.trans {db₂ : HandleDb} (h₁ : HandleEdit db db₁) (h₂ : HandleEdit db₁ db₂) :
    HandleEdit db db₂ :=
  ⟨h₁.edit.trans h₂.edit, fun p hid => h₂.idle p (h₁.idle p hid)⟩

theorem Idle.setProt {p' : ℕ} (hid : Idle db p)
    (hnew : p' = p → ∀ d ∈ r.openList, d.attributes = openByHandleProtocol) :
    Idle (db.setProt p' r) p := by
  intro r' hpr
  by_cases hp : p = p'
  · subst hp
    rw [prot_setProt_self] at hpr
    obtain rfl := some.inj hpr
    exact hnew rfl
  · rw [prot_setProt_of_ne db r hp] at hpr
    exact hid r' hpr

/-- `CoreHandleProtocol` keeps idle interfaces idle. -/
theorem handleEdit_coreHandleProtocol {alloc : Bool} {res : OpenResult}
    (ho : coreHandleProtocol db h g alloc = some res) : HandleEdit db res.db := by
  refine ⟨openEdit_coreOpenProtocol ho, fun p hid => ?_⟩
  replace ho : openWith (runStops .nil) db
    ⟨h, some g, false, db.dxeCoreImageHandle, 0, openByHandleProtocol⟩ alloc = some res := ho
  rcases openWith_cases ho with hsa | ⟨protocol, p', r, -, hg, hc⟩
  · rwa [hsa]
  obtain ⟨-, hpr, -⟩ := coreGetProtocolInterface_eq_some hg
  rcases hc with ⟨l, hs, hr⟩ | ⟨⟨r', hp', hr⟩, -⟩ | ⟨he, -⟩
  · rw [hr]
    refine hid.setProt fun hp d hd => ?_
    subst hp
    have hattr := mem_map_of_mem (f := OpenData.attributes) hd
    rw [map_attributes_of_counted hs] at hattr
    obtain ⟨d', hd', heq⟩ := mem_map.mp hattr
    rw [← heq]
    exact hid r hpr d' hd'
  · rw [hr]
    refine hid.setProt fun hp d hd => ?_
    subst hp
    rcases mem_append.mp hd with hd | hd
    · exact hid r' hp' d hd
    · obtain rfl := mem_singleton.mp hd
      rfl
  · exact absurd he (not_exclusive_byHandle rfl)

theorem handleEdit_matchLoop {path : ℕ → DevicePath} {source : List UInt8} {openData : ℕ → Bool}
    {hs : List ℕ} {best best' : Option (ℕ × ℕ)}
    (hl : matchLoop path source openData hs db best = some (db', best')) : HandleEdit db db' := by
  induction hs generalizing db best with
  | nil =>
    cases hl
    exact .refl _
  | cons h hs ih =>
    obtain ⟨res, ho, hr⟩ := bind_eq_some_iff.mp hl
    refine (handleEdit_coreHandleProtocol ho).trans ?_
    dsimp only at hr
    split at hr
    · exact ih hr
    split at hr
    · cases hr
    split at hr
    · exact ih hr
    · exact ih hr

theorem handleEdit_duplicateDevicePath {path : ℕ → DevicePath} {duplicate : Bool}
    (hc : duplicateDevicePath path db arg = some (db', duplicate)) : HandleEdit db db' := by
  unfold duplicateDevicePath at hc
  split at hc
  · obtain ⟨⟨db₁, best⟩, hl, heq⟩ := map_eq_some_iff.mp hc
    cases heq
    unfold coreLocateDevicePath at hl
    split at hl
    · cases hl
      exact .refl db
    · exact handleEdit_matchLoop hl
  · cases hc
    exact .refl db

end Triples

/-! ## Installing several interfaces -/

section Install

variable {db₀ db db' : HandleDb} {h p i : ℕ} {g : EfiGuid} {added : List (ℕ × InstallArg)}
  {args : List InstallArg} {path : ℕ → DevicePath}

theorem coreDisconnectControllers_of_idle {calls : UninstallCalls} (hc : Counted db)
    (hid : Idle db p) : coreDisconnectControllers db p calls = some (db.dropInformational p, true) := by
  have hdri : ¬ db.Driven p := by
    rintro ⟨d, hd, hdr⟩
    cases hp : db.prot p with
    | none =>
      rw [hp] at hd
      exact absurd hd not_mem_nil
    | some r =>
      rw [hp] at hd
      rw [OpenData.ByDriver, hid r hp d hd] at hdr
      exact absurd rfl hdr
  have hst : runStops calls.stops p db = some (db, true) := by
    cases calls.stops with
    | nil | stop => rw [runStops, if_neg hdri]
  unfold coreDisconnectControllers
  rw [hst, bind_some]
  dsimp only
  rw [if_pos rfl, if_pos]
  refine ⟨rfl, ?_⟩
  unfold dropInformational
  cases hp : db.prot p with
  | none => simp [hp]
  | some r =>
    have ha : r.openList.countP (fun d => d.Informational) = r.openList.length := by
      refine countP_eq_length.mpr fun d hd => decide_eq_true ?_
      rw [OpenData.Informational, hid r hp d hd]
      decide
    rw [prot_setProt_self]
    show decide (r.openListCount - r.openList.countP (fun d => d.Informational) = 0) = true
    rw [ha, hc p r hp, Nat.sub_self]
    rfl

theorem handleEdit_dropInformational (db : HandleDb) (p : ℕ) :
    HandleEdit db (db.dropInformational p) := by
  refine ⟨openEdit_dropInformational db p, fun p' hid => ?_⟩
  unfold dropInformational
  split
  · exact hid
  · rename_i r hpr
    refine hid.setProt fun hp d hd => ?_
    subst hp
    exact hid r hpr d (mem_of_mem_filter hd)

/-- **An idle interface is uninstalled**, if it is the only one of its triple. -/
theorem coreUninstallProtocolInterface_of_idle (calls : UninstallCalls) (hdb : Linked db)
    (hc : Counted db) (hv : db.view p = some (h, g, i))
    (hu : ∀ p', db.view p' = some (h, g, i) → p' = p) (hid : Idle db p) :
    ∃ db', coreUninstallProtocolInterface db h (some g) i calls = some (.success, db') ∧ Linked db' ∧
      Counted db' ∧ db'.view = update db.view p none ∧ ∀ p', Idle db p' → Idle db' p' := by
  obtain ⟨p', r, hf⟩ := hdb.find_of_view hv
  obtain rfl := hu p' (hdb.view_of_find hf)
  have hd := handleEdit_dropInformational db p'
  have hdb₁ := hdb.of_sameLinks hd.edit.links
  obtain ⟨r₁, hf₁, hl₁⟩ := hd.edit.links.coreFindProtocolInterface hf
  obtain ⟨hm₁, hp₁, -⟩ := coreFindProtocolInterface_eq_some hf₁
  have hsh : ∀ p₂ r₂, (((db.dropInformational p').removeInterface p' h r₁).freeHandle h).prot p₂
      = some r₂ → (db.dropInformational p').prot p₂ = some r₂ := by
    intro p₂ r₂ hs
    rw [prot_freeHandle] at hs
    replace hs : update (db.dropInformational p').prot p' none p₂ = some r₂ := hs
    by_cases hp : p₂ = p'
    · subst hp
      rw [update_self] at hs
      cases hs
    · rwa [update_of_ne hp] at hs
  refine ⟨((db.dropInformational p').removeInterface p' h r₁).freeHandle h, ?_,
    linked_removeInterface hdb₁ hp₁ (hdb₁.byHandle.key_eq hp₁ hm₁), ?_, ?_, ?_⟩
  · unfold coreUninstallProtocolInterface
    dsimp only
    rw [if_neg (not_not.mpr (hdb.valid_of_view hv)), hf]
    dsimp only
    rw [coreDisconnectControllers_of_idle hc hid, map_some]
    rw [if_pos rfl, hf₁]
  · exact fun p₂ r₂ hs => hd.edit.counted hc p₂ r₂ (hsh p₂ r₂ hs)
  · rw [view_removeInterface, hd.edit.links.view_eq]
  · exact fun p₂ hi₂ r₂ hs => hd.idle p₂ hi₂ r₂ (hsh p₂ r₂ hs)

/-- **The database with the interfaces of some pairs added** to a handle, each at its address. -/
structure Added (db₀ db : HandleDb) (h : ℕ) (added : List (ℕ × InstallArg)) : Prop where
  linked : Linked db
  counted : Counted db
  pairs : ∀ x ∈ added, db.view x.1 = some (h, x.2.protocol, x.2.interface)
  nodup : (added.map Prod.fst).Nodup
  fresh : ∀ x ∈ added, db₀.view x.1 = none
  others : ∀ p, p ∉ added.map Prod.fst → db.view p = db₀.view p
  unique : ∀ x ∈ added, ∀ p, db.view p = db.view x.1 → p = x.1
  idle : ∀ x ∈ added, Idle db x.1

theorem Added.of_handleEdit (ha : Added db₀ db h added) (he : HandleEdit db db') :
    Added db₀ db' h added := by
  have hv := he.edit.links.view_eq
  refine ⟨ha.linked.of_sameLinks he.edit.links, he.edit.counted ha.counted, ?_,
    ha.nodup, ha.fresh, ?_, ?_, fun x hx => he.idle x.1 (ha.idle x hx)⟩
  · rw [hv]
    exact ha.pairs
  · rw [hv]
    exact ha.others
  · rw [hv]
    exact ha.unique

theorem EntryFound.view_eq (hf : EntryFound db g db') : db'.view = db.view := by
  unfold view
  rw [hf.prot]

theorem Added.of_entryFound (ha : Added db₀ db h added) (hf : EntryFound db g db') :
    Added db₀ db' h added := by
  have hv := hf.view_eq
  refine ⟨hf.linked ha.linked, ?_, ?_, ha.nodup, ha.fresh, ?_, ?_, ?_⟩
  · have := ha.counted
    unfold Counted at ⊢
    rwa [hf.prot]
  · rw [hv]
    exact ha.pairs
  · rw [hv]
    exact ha.others
  · rw [hv]
    exact ha.unique
  · have := ha.idle
    unfold Idle at ⊢
    rwa [hf.prot]

theorem Added.uninstall (ha : Added db₀ db h ((p, arg) :: added)) :
    ∃ db', coreUninstallProtocolInterface db h (some arg.protocol) arg.interface arg.calls
      = some (.success, db') ∧ Added db₀ db' h added := by
  have hv := ha.pairs (p, arg) mem_cons_self
  obtain ⟨hn, hno⟩ := nodup_cons.mp ha.nodup
  obtain ⟨db', hr, hl, hc, hv', hid⟩ :=
    coreUninstallProtocolInterface_of_idle arg.calls ha.linked ha.counted hv
      (fun p' hp' => ha.unique (p, arg) mem_cons_self p' (hp'.trans hv.symm))
      (ha.idle (p, arg) mem_cons_self)
  have hne : ∀ {x}, x ∈ added → x.1 ≠ p := fun {x} hx heq =>
    hn (mem_map.mpr ⟨x, hx, heq⟩)
  refine ⟨db', hr, hl, hc, fun x hx => ?_, hno,
    fun x hx => ha.fresh x (mem_cons_of_mem _ hx), fun p' hp' => ?_, fun x hx p' heq => ?_,
    fun x hx => hid x.1 (ha.idle x (mem_cons_of_mem _ hx))⟩
  · rw [hv', update_of_ne (hne hx)]
    exact ha.pairs x (mem_cons_of_mem _ hx)
  · rw [hv']
    by_cases hp : p' = p
    · subst hp
      rw [update_self, ha.fresh (p', arg) mem_cons_self]
    · rw [update_of_ne hp]
      exact ha.others p' (by simpa [hp] using hp')
  · rw [hv', update_of_ne (hne hx)] at heq
    have hs := ha.pairs x (mem_cons_of_mem _ hx)
    by_cases hp : p' = p
    · subst hp
      rw [update_self, hs] at heq
      cases heq
    · rw [update_of_ne hp] at heq
      exact ha.unique x (mem_cons_of_mem _ hx) p' heq

/-- **All pairs are taken off again**, and the triples are those from before. -/
theorem Added.uninstallAll (ha : Added db₀ db h added) :
    ∃ db', Hand.uninstallAll db h (added.map Prod.snd) = some db' ∧ db'.view = db₀.view := by
  induction added generalizing db with
  | nil => exact ⟨db, rfl, funext fun p => ha.others p not_mem_nil⟩
  | cons x added ih =>
    obtain ⟨db₁, hr, ha₁⟩ := ha.uninstall
    obtain ⟨db', hre, hv⟩ := ih ha₁
    refine ⟨db', ?_, hv⟩
    rw [map_cons, Hand.uninstallAll, hr]
    exact hre

variable {res : InstallResult}

theorem Installed.not_view (hin : Installed db h g i res) (hdb : Linked db)
    (p : ℕ) : db.view p ≠ some (res.handle, g, i) := by
  intro hv
  obtain ⟨-, -, ⟨-, -, hnew, -⟩ | ⟨-, -, hnone, hh, -⟩⟩ := hin
  · exact hnew (hdb.valid_of_view hv).2
  · rw [hh] at hv
    obtain ⟨p', r, hf⟩ := hdb.find_of_view hv
    rw [hnone] at hf
    cases hf

theorem Installed.view_eq (hin : Installed db h g i res) :
    ∃ p, db.view p = none ∧
      res.db.view = update db.view p (some (res.handle, g, i)) ∧
      res.db.prot = update db.prot p (some ⟨res.handle, g, i, [], 0⟩) := by
  obtain ⟨p, hfree, hpr⟩ := hin.prot_eq
  refine ⟨p, view_eq_none.mpr hfree, ?_, hpr⟩
  funext p'
  rw [view, hpr]
  by_cases hp : p' = p
  · subst hp
    rw [update_self, update_self]
    rfl
  · rw [update_of_ne hp, update_of_ne hp]
    rfl

/-- **One more pair is installed.** -/
theorem Added.install (hadd : Added db₀ db h added)
    (hz : h = 0 → added = []) (hin : Installed db h arg.protocol arg.interface res)
    (hg : arg.protocol ∈ db.entries) :
    ∃ p, Added db₀ res.db res.handle (added ++ [(p, arg)]) ∧ res.handle ≠ 0 := by
  obtain ⟨p, hfree, hv, hpr⟩ := hin.view_eq
  have hn := hin.not_view hadd.linked
  have hha : res.handle ≠ 0 ∧ (added ≠ [] → res.handle = h) := by
    obtain ⟨-, -, ⟨hh, hne, -⟩ | ⟨hne, -, -, heq, -⟩⟩ := hin
    · exact ⟨hne, fun had => absurd (hz hh) had⟩
    · exact ⟨heq ▸ hne, fun _ => heq⟩
  have hne : ∀ {x}, x ∈ added → x.1 ≠ p := by
    intro x hx heq
    have := hadd.pairs x hx
    rw [heq, hfree] at this
    cases this
  have hnm : p ∉ added.map Prod.fst := by
    intro hmem
    obtain ⟨x, hx, heq⟩ := mem_map.mp hmem
    exact hne hx heq
  have hmem : ∀ {x}, x ∈ added ++ [(p, arg)] → x ∈ added ∨ x = (p, arg) := fun hx =>
    (mem_append.mp hx).imp_right mem_singleton.mp
  refine ⟨p, ⟨linked_of_installed hadd.linked hg hin, hin.forall_prot hadd.counted rfl, ?_, ?_,
    ?_, ?_, ?_, ?_⟩, hha.1⟩
  · intro x hx
    rw [hv]
    rcases hmem hx with hx | rfl
    · rw [update_of_ne (hne hx), hadd.pairs x hx, hha.2 (ne_nil_of_mem hx)]
    · rw [update_self]
  · rw [map_append]
    refine nodup_append.mpr ⟨hadd.nodup, nodup_singleton p, fun a ha b hb heq => ?_⟩
    rw [heq, show b = p from mem_singleton.mp hb] at ha
    exact hnm ha
  · intro x hx
    rcases hmem hx with hx | rfl
    · exact hadd.fresh x hx
    · rw [← hadd.others p hnm, hfree]
  · intro p' hp'
    rw [map_append, mem_append, not_or] at hp'
    have hpn : p' ≠ p := fun heq => hp'.2 (mem_singleton.mpr heq)
    rw [hv, update_of_ne hpn]
    exact hadd.others p' hp'.1
  · intro x hx p' heq
    rw [hv] at heq
    by_cases hp : p' = p
    · subst hp
      rcases hmem hx with hx | rfl
      · rw [update_self, update_of_ne (hne hx)] at heq
        exact absurd heq.symm (hn x.1)
      · rfl
    · rw [update_of_ne hp] at heq
      rcases hmem hx with hx | rfl
      · rw [update_of_ne (hne hx)] at heq
        exact hadd.unique x hx p' heq
      · rw [update_self] at heq
        exact absurd heq (hn p')
  · intro x hx
    unfold Idle
    rw [hpr]
    rcases hmem hx with hx | rfl
    · rw [update_of_ne (hne hx)]
      exact hadd.idle x hx
    · rw [update_self]
      intro r hr d hd
      obtain rfl := some.inj hr
      exact absurd hd not_mem_nil

/-- What installing one more pair leaves. -/
def AddsOne (db₀ : HandleDb) (h : ℕ) (added : List (ℕ × InstallArg)) (arg : InstallArg)
    (res : InstallResult) : Prop :=
  (res.status.isError = true ∧ Added db₀ res.db h added ∧ res.handle = h) ∨
    (res.status.isError = false ∧
      ∃ p, Added db₀ res.db res.handle (added ++ [(p, arg)]) ∧ res.handle ≠ 0)

theorem Added.installLocked {status : EfiStatus} (ha : Added db₀ db h added)
    (hz : h = 0 → added = []) (he : status.isError = true)
    (hl : Hand.installLocked db h arg.protocol arg.interface status arg.alloc = some res) :
    AddsOne db₀ h added arg res := by
  rcases installLocked_cases hl with ⟨hh, ⟨hs, hre⟩ | ⟨hs, hf⟩⟩ | ⟨hs, db₂, hf, hin⟩
  · exact .inl ⟨hs ▸ he, hre ▸ ha, hh⟩
  · exact .inl ⟨hs, ha.of_entryFound hf, hh⟩
  · exact .inr ⟨by rw [hs]; rfl, (ha.of_entryFound hf).install hz hin hf.mem⟩

theorem Added.installNative (ha : Added db₀ db h added) (hz : h = 0 → added = [])
    (hru : Hand.installNative db h arg.protocol arg.interface arg.alloc = some res) :
    AddsOne db₀ h added arg res := by
  unfold Hand.installNative at hru
  split at hru
  · exact ha.installLocked hz rfl hru
  · obtain ⟨r, hop, hr⟩ := bind_eq_some_iff.mp hru
    have ho := ha.of_handleEdit (handleEdit_coreHandleProtocol hop)
    split at hr
    · exact ho.installLocked hz ‹_› hr
    · cases hr
      exact .inl ⟨rfl, ho, rfl⟩

/-- **When the loop fails, the pairs that `Index` counts were added.** -/
theorem Added.installLoop {index : ℕ} {r : LoopResult} (ha : Added db₀ db h added)
    (hz : h = 0 → added = []) (hid : added.length = index)
    (hl : Hand.installLoop path db h args index = some r) (he : r.status.isError = true) :
    ∃ added', Added db₀ r.db r.handle added' ∧
      added'.map Prod.snd = (added.map Prod.snd ++ args).take (r.index - 1) := by
  induction args generalizing db h added index with
  | nil =>
    cases hl
    cases he
  | cons arg args ih =>
    obtain ⟨⟨db₁, duplicate⟩, hc, hr⟩ := bind_eq_some_iff.mp hl
    have ha₁ := ha.of_handleEdit (handleEdit_duplicateDevicePath hc)
    have ht : added.map Prod.snd = (added.map Prod.snd ++ arg :: args).take (index + 1 - 1) := by
      rw [Nat.add_sub_cancel, take_left' (by rw [length_map, hid])]
    dsimp only at hr
    split at hr
    · cases hr
      exact ⟨added, ha₁, ht⟩
    · obtain ⟨res, hin, hr⟩ := bind_eq_some_iff.mp hr
      rcases ha₁.installNative hz hin with
        ⟨hf, ha₂, hha⟩ | ⟨hok, p, ha₂, hnz⟩
      · rw [if_pos hf] at hr
        cases hr
        exact ⟨added, hha ▸ ha₂, ht⟩
      · rw [if_neg (by rw [hok]; exact Bool.false_ne_true)] at hr
        obtain ⟨added', ha', hm⟩ := ih ha₂ (fun hh => absurd hh hnz)
          (by rw [length_append, length_singleton, hid]) hr
        refine ⟨added', ha', ?_⟩
        rw [hm, map_append, map_singleton, append_assoc, singleton_append]

/-- **A failed call to install several interfaces leaves the triples as they were**, and the handle
variable too. -/
theorem installMultiple_restores {handle : Option ℕ} {res : InstallResult} (hdb : Linked db)
    (hcounted : Counted db)
    (hrun : coreInstallMultipleProtocolInterfaces path db handle args = some res)
    (herror : res.status.isError = true) :
    (∀ h g i, Carries res.db h g i ↔ Carries db h g i) ∧ ∀ h, handle = some h → res.handle = h := by
  unfold coreInstallMultipleProtocolInterfaces at hrun
  split at hrun
  · cases hrun
    exact ⟨fun _ _ _ => Iff.rfl, fun _ hnone => nomatch hnone⟩
  · rename_i h
    obtain ⟨r, hl, hr⟩ := bind_eq_some_iff.mp hrun
    have hs : Added db db h [] :=
      ⟨hdb, hcounted, fun _ hx => absurd hx not_mem_nil, nodup_nil,
        fun _ hx => absurd hx not_mem_nil, fun _ _ => rfl,
        fun _ hx => absurd hx not_mem_nil, fun _ hx => absurd hx not_mem_nil⟩
    split at hr
    · obtain ⟨db', hu, heq⟩ := map_eq_some_iff.mp hr
      obtain ⟨added, ha, hm⟩ := hs.installLoop (fun _ => rfl) rfl hl ‹_›
      obtain ⟨db₁, hu₁, hv⟩ := ha.uninstallAll
      rw [hm, map_nil, nil_append, hu] at hu₁
      obtain rfl := some.inj hu₁
      subst heq
      refine ⟨fun h g i => ?_, fun h' hso => some.inj hso⟩
      show (∃ p, db'.view p = _) ↔ ∃ p, db.view p = _
      rw [hv]
    · cases hr
      exact absurd herror ‹_›

end Install

section Samples

private def sampleCalls : UninstallCalls := ⟨.nil, .nil⟩

/-- A pair to be installed on a new handle at `0x10`; `prot` is where its interface is allocated. -/
private def samplePair (protocol : EfiGuid) (prot : Option ℕ) : InstallArg :=
  ⟨protocol, 0x1000, ⟨true, fun _ => true⟩, ⟨true, true, prot, some 0x10⟩, sampleCalls⟩

/-- The second interface cannot be allocated: the handle that was created for the first is gone. -/
theorem installMultiple_restores_new :
    ∃ res, coreInstallMultipleProtocolInterfaces (fun _ => ⟨[], [], false⟩) initialDb (some 0)
        [samplePair [1] (some 1), samplePair [2] none] = some res ∧
      res.status = .outOfResources ∧ res.handle = 0 ∧
      ∀ h g i, Carries res.db h g i ↔ Carries initialDb h g i := by
  have he : (coreInstallMultipleProtocolInterfaces (fun _ => ⟨[], [], false⟩) initialDb (some 0)
      [samplePair [1] (some 1), samplePair [2] none]).map InstallResult.status
      = some .outOfResources := by
    decide +kernel
  obtain ⟨res, hr, hs⟩ := map_eq_some_iff.mp he
  obtain ⟨hsa, hh⟩ := installMultiple_restores consistent_initialDb.linked
    consistent_initialDb.counted hr (by rw [hs]; rfl)
  exact ⟨res, hr, hs, hh 0 rfl, hsa⟩

end Samples

end Edk2.Hand

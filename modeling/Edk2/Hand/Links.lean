import Edk2.Hand.Database
import Edk2.Lib.Indexed

/-!
# The lists of the handle database

Every protocol interface is on the list of its handle and on that of its protocol entry, and a
handle is on `gHandleList` as long as it carries an interface. Callbacks keep these lists; an
install and an uninstall call edit them at one interface.

## Main results

* `linked_addInterface`, `linked_addHandle`, `linked_removeInterface`: the edits of the lists
* `installLocked_cases`, `coreUninstallProtocolInterface_cases`: what the calls do
* `coreHandleProtocol_status`: a protocol that is there is found
-/

namespace Edk2.Hand

open List Option
open Function (update update_self update_of_ne update_eq_self)

/-! ## The lists -/

/-- **The lists of the database agree with each other.** -/
structure Linked (db : HandleDb) : Prop where
  zero_notMem : 0 ∉ db.handleList
  handles_nodup : db.handleList.Nodup
  mem_handleList : ∀ h, h ∈ db.handleList ↔ db.protocols h ≠ []
  byHandle : Indexed db.protocols ProtocolInterface.handle db.prot
  entries_nodup : db.entries.Nodup
  mem_entries : ∀ p r, db.prot p = some r → r.protocol ∈ db.entries
  byEntry : Indexed db.byProtocol ProtocolInterface.protocol db.prot

/-- No handle carries two interfaces of a protocol. -/
def UniqueGuid (db : HandleDb) : Prop :=
  ∀ p q r s, db.prot p = some r → db.prot q = some s → r.handle = s.handle →
    r.protocol = s.protocol → p = q

/-- The interface is one of a protocol on a handle. -/
def HandleDb.At (db : HandleDb) (p h : ℕ) (g : EfiGuid) : Prop :=
  ∃ r, db.prot p = some r ∧ r.handle = h ∧ r.protocol = g

section Lists

variable {db db' : HandleDb} {h h' p i : ℕ} {g : EfiGuid} {r : ProtocolInterface}

theorem SameLinks.map_prot {α : Type*} (hl : SameLinks db db') (f : ℕ × EfiGuid × ℕ → α) (p : ℕ) :
    (db'.prot p).map (fun r => f r.links) = (db.prot p).map fun r => f r.links := by
  have := congrArg (Option.map f) (hl.prot p)
  rwa [Option.map_map, Option.map_map] at this

theorem Linked.of_sameLinks (h : Linked db) (hl : SameLinks db db') : Linked db' where
  zero_notMem := hl.handleList ▸ h.zero_notMem
  handles_nodup := hl.handleList ▸ h.handles_nodup
  mem_handleList h' := by
    rw [hl.handleList, hl.protocols]
    exact h.mem_handleList h'
  byHandle := by
    rw [hl.protocols]
    exact h.byHandle.congr (hl.map_prot Prod.fst)
  entries_nodup := hl.entries ▸ h.entries_nodup
  mem_entries p r hp := by
    obtain ⟨r', hp', heq⟩ := hl.symm.exists_prot hp
    rw [hl.entries, ← show r'.protocol = r.protocol from congrArg (fun l => l.2.1) heq]
    exact h.mem_entries p r' hp'
  byEntry := by
    rw [hl.byProtocol]
    exact h.byEntry.congr (hl.map_prot fun l => l.2.1)

theorem UniqueGuid.of_sameLinks (h : UniqueGuid db) (hl : SameLinks db db') : UniqueGuid db' := by
  intro p q r s hp hq hh hpr
  obtain ⟨r', hp', hr⟩ := hl.symm.exists_prot hp
  obtain ⟨s', hq', hs⟩ := hl.symm.exists_prot hq
  have hh' : r'.handle = s'.handle :=
    (congrArg Prod.fst hr).trans (hh.trans (congrArg Prod.fst hs).symm)
  have hpr' : r'.protocol = s'.protocol :=
    (congrArg (fun l => l.2.1) hr).trans (hpr.trans (congrArg (fun l => l.2.1) hs).symm)
  exact h p q r' s' hp' hq' hh' hpr'

theorem SameLinks.find (hl : SameLinks db db') {q : ProtocolInterface → Bool}
    (hq : ∀ r r', r'.links = r.links → q r' = q r) (hfi : db.find h q = some (p, r)) :
    ∃ r', db'.find h q = some (p, r') ∧ r'.links = r.links := by
  unfold HandleDb.find at hfi ⊢
  rw [hl.protocols]
  generalize db.protocols h = ps at hfi
  induction ps with
  | nil => cases hfi
  | cons p' ps ih =>
    rw [List.findSome?_cons] at hfi ⊢
    cases hp : db.prot p' with
    | none =>
      have hp' : db'.prot p' = none := by
        have := hl.prot p'
        rwa [hp, map_none, map_eq_none_iff] at this
      rw [hp] at hfi
      rw [hp']
      exact ih hfi
    | some r₀ =>
      obtain ⟨r₁, hp', heq⟩ := hl.exists_prot hp
      rw [hp, bind_some] at hfi
      rw [hp', bind_some, hq r₀ r₁ heq]
      by_cases hf : q r₀ = true
      · rw [if_pos hf] at hfi ⊢
        cases hfi
        exact ⟨r₁, rfl, heq⟩
      · rw [if_neg hf] at hfi ⊢
        exact ih hfi

theorem SameLinks.coreFindProtocolInterface (hl : SameLinks db db')
    (hf : coreFindProtocolInterface db h g i = some (p, r)) :
    ∃ r', Hand.coreFindProtocolInterface db' h g i = some (p, r') ∧ r'.links = r.links := by
  unfold Hand.coreFindProtocolInterface at hf ⊢
  rw [hl.entries]
  split at hf
  · rename_i hmem
    rw [if_pos hmem]
    refine hl.find (fun r r' heq => ?_) hf
    rw [show r'.interface = r.interface from congrArg (fun l => l.2.2) heq,
      show r'.protocol = r.protocol from congrArg (fun l => l.2.1) heq]
  · cases hf

theorem linked_insert (h : Linked db) (h' i : ℕ) (hp : db.prot p = none) (hg : g ∈ db.entries) :
    Indexed (update db.protocols h' (p :: db.protocols h')) ProtocolInterface.handle
      (update db.prot p (some ⟨h', g, i, [], 0⟩)) ∧
    (∀ p₁ r, update db.prot p (some ⟨h', g, i, [], 0⟩) p₁ = some r →
      r.protocol ∈ db.entries) ∧
    Indexed (update db.byProtocol g (db.byProtocol g ++ [p])) ProtocolInterface.protocol
      (update db.prot p (some ⟨h', g, i, [], 0⟩)) := by
  refine ⟨h.byHandle.insert (r := ⟨h', g, i, [], 0⟩) hp (.refl _), fun p₁ r hpr => ?_,
    h.byEntry.insert (r := ⟨h', g, i, [], 0⟩) hp (perm_append_singleton p _)⟩
  by_cases hp₁ : p₁ = p
  · subst hp₁
    rw [update_self] at hpr
    obtain rfl := some.inj hpr
    exact hg
  · rw [update_of_ne hp₁] at hpr
    exact h.mem_entries p₁ r hpr

/-- **An interface is added** to a handle that is on the list. -/
theorem linked_addInterface (h : Linked db) (hha : h' ∈ db.handleList) (hp : db.prot p = none)
    (hg : g ∈ db.entries) : Linked (db.addInterface p h' g i) := by
  obtain ⟨hb, he, hbe⟩ := linked_insert h h' i hp hg
  refine ⟨h.zero_notMem, h.handles_nodup, fun h₁ => ?_, hb, h.entries_nodup, he,
    hbe⟩
  · show h₁ ∈ db.handleList ↔ update db.protocols h' (p :: db.protocols h') h₁ ≠ []
    by_cases hh : h₁ = h'
    · subst hh
      rw [update_self]
      exact ⟨fun _ => cons_ne_nil _ _, fun _ => hha⟩
    · rw [update_of_ne hh]
      exact h.mem_handleList h₁

/-- **An interface is added to a new handle.** -/
theorem linked_addHandle (h : Linked db) (hz : h' ≠ 0) (hha : h' ∉ db.handleList)
    (hp : db.prot p = none) (hg : g ∈ db.entries) :
    Linked ((db.addHandle h').addInterface p h' g i) := by
  have hempty : db.protocols h' = [] := by
    by_contra hne
    exact hha ((h.mem_handleList h').mpr hne)
  have hs : update db.protocols h' [] = db.protocols := by
    rw [← hempty, update_eq_self]
  obtain ⟨hbh, he, hbe⟩ := linked_insert h h' i hp hg
  refine ⟨?_, ?_, fun h₁ => ?_, ?_, h.entries_nodup, he, hbe⟩
  · show 0 ∉ db.handleList ++ [h']
    simp [h.zero_notMem, hz.symm]
  · exact nodup_append.mpr ⟨h.handles_nodup, nodup_singleton h', fun a ha b hb => by
      rintro rfl
      exact hha (mem_singleton.mp hb ▸ ha)⟩
  · show h₁ ∈ db.handleList ++ [h'] ↔ update (update db.protocols h' []) h'
      (p :: update db.protocols h' [] h') h₁ ≠ []
    rw [hs]
    by_cases hh : h₁ = h'
    · subst hh
      rw [update_self]
      exact ⟨fun _ => cons_ne_nil _ _, fun _ => by simp⟩
    · rw [update_of_ne hh, mem_append, mem_singleton, or_iff_left hh]
      exact h.mem_handleList h₁
  · show Indexed (update (update db.protocols h' []) h'
      (p :: update db.protocols h' [] h')) _ _
    rwa [hs]

/-- **An interface is taken off its lists**, and its handle is freed if it was the last. -/
theorem linked_removeInterface (h : Linked db) (hp : db.prot p = some r) (hr : r.handle = h') :
    Linked ((db.removeInterface p h' r).freeHandle h') := by
  subst hr
  have hha : r.handle ∈ db.handleList :=
    (h.mem_handleList _).mpr (ne_nil_of_mem (h.byHandle.mem hp))
  have he : ∀ p₁ r₁, update db.prot p none p₁ = some r₁ → r₁.protocol ∈ db.entries := by
    intro p₁ r₁ hpr
    by_cases hp₁ : p₁ = p
    · subst hp₁
      rw [update_self] at hpr
      cases hpr
    · rw [update_of_ne hp₁] at hpr
      exact h.mem_entries p₁ r₁ hpr
  have ho : ∀ h₁, h₁ ≠ r.handle → (h₁ ∈ db.handleList ↔
      update db.protocols r.handle ((db.protocols r.handle).erase p) h₁ ≠ []) := by
    intro h₁ hh
    rw [update_of_ne hh]
    exact h.mem_handleList h₁
  unfold HandleDb.freeHandle
  split
  · rename_i hlast
    refine ⟨fun hmem => h.zero_notMem (mem_of_mem_erase hmem), h.handles_nodup.erase _,
      fun h₁ => ?_, h.byHandle.erase hp, h.entries_nodup, he, h.byEntry.erase hp⟩
    by_cases hh : h₁ = r.handle
    · subst hh
      exact ⟨fun hmem => absurd hmem h.handles_nodup.not_mem_erase, fun hne => absurd hlast hne⟩
    · rw [mem_erase_of_ne hh]
      exact ho h₁ hh
  · rename_i hl
    refine ⟨h.zero_notMem, h.handles_nodup, fun h₁ => ?_, h.byHandle.erase hp, h.entries_nodup,
      he, h.byEntry.erase hp⟩
    by_cases hh : h₁ = r.handle
    · subst hh
      exact ⟨fun _ => hl, fun _ => hha⟩
    · exact ho h₁ hh

theorem HandleDb.At.of_sameLinks (hat : db.At p h g) (hl : SameLinks db db') : db'.At p h g := by
  obtain ⟨r, hp, rfl, rfl⟩ := hat
  obtain ⟨r', hp', heq⟩ := hl.exists_prot hp
  exact ⟨r', hp', congrArg Prod.fst heq, congrArg (fun l => l.2.1) heq⟩

theorem Linked.at (hdb : Linked db) (hg : coreGetProtocolInterface db h g = some (p, r)) :
    db.At p h g := by
  obtain ⟨hmem, hp, hpr⟩ := coreGetProtocolInterface_eq_some hg
  exact ⟨r, hp, hdb.byHandle.key_eq hp hmem, hpr⟩

theorem HandleDb.At.unique {g' : EfiGuid} (h₁ : db.At p h g) (h₂ : db.At p h' g') :
    h' = h ∧ g' = g := by
  obtain ⟨r, hp, rfl, rfl⟩ := h₁
  obtain ⟨r', hp', rfl, rfl⟩ := h₂
  obtain rfl := some.inj (hp.symm.trans hp')
  exact ⟨rfl, rfl⟩

theorem Linked.not_at (hdb : Linked db) (hg : db.Valid h → coreGetProtocolInterface db h g = none)
    (p : ℕ) : ¬ db.At p h g := by
  rintro ⟨r, hp, rfl, rfl⟩
  have hmem := hdb.byHandle.mem hp
  have hh := (hdb.mem_handleList _).mpr (ne_nil_of_mem hmem)
  have hv : db.Valid r.handle := ⟨fun hz => hdb.zero_notMem (hz ▸ hh), hh⟩
  have hnone := hg hv
  rw [coreGetProtocolInterface, if_pos hv] at hnone
  have := find_eq_none hnone hmem hp
  simp at this

end Lists

section HandleProtocol

variable {db : HandleDb} {h : ℕ} {g : EfiGuid}

/-- The search of an open by handle does not end in `EFI_ALREADY_STARTED`. -/
theorem scan_ne_alreadyStarted {a : OpenArgs} (ha : a.attributes = openByHandleProtocol)
    (l : List OpenData) : scan a l ≠ .alreadyStarted := by
  induction l with
  | nil => exact fun hs => by cases hs
  | cons d ds ih =>
    rw [scan]
    split
    · rename_i hm
      obtain ⟨hd, -, hattr, -⟩ := hm
      rw [OpenData.ByDriver, hattr, ha] at hd
      exact absurd rfl hd
    · split
      · exact fun hs => by cases hs
      · split
        · exact fun _ => ih ‹_›
        · exact fun hs => by cases hs
        · exact fun hs => by cases hs

theorem accepted_byHandle {a : OpenArgs} (ha : a.attributes = openByHandleProtocol) :
    a.Accepted db := by
  unfold OpenArgs.Accepted
  rw [ha, if_neg (by decide)]
  exact .inl rfl

theorem not_exclusive_byHandle {a : OpenArgs} (ha : a.attributes = openByHandleProtocol) :
    ¬ a.openData.Exclusive := by
  show ¬ a.attributes &&& openExclusive ≠ 0
  rw [ha]
  decide

/-- **`CoreHandleProtocol` finds a protocol that is there**, unless it cannot allocate. -/
theorem coreHandleProtocol_status {res : OpenResult} (hv : db.Valid h)
    (hg : coreGetProtocolInterface db h g ≠ none)
    (hr : coreHandleProtocol db h g true = some res) : res.status = .success := by
  obtain ⟨⟨p, r⟩, hg⟩ := ne_none_iff_exists'.mp hg
  have hp := (coreGetProtocolInterface_eq_some hg).2.1
  unfold coreHandleProtocol coreOpenProtocol openWith at hr
  dsimp only at hr
  rw [if_neg (by simp), if_neg (not_not.mpr hv), if_neg (not_not.mpr (accepted_byHandle rfl)),
    hg] at hr
  dsimp only at hr
  split at hr
  · exact absurd ‹_› (scan_ne_alreadyStarted rfl _)
  · cases hr
    rfl
  · obtain rfl := some.inj hr
    unfold createOpenData
    rw [hp]
    dsimp only
    split
    · rfl
    · rfl

end HandleProtocol

/-! ## Installing and uninstalling -/

section Install

variable {db db₁ db' : HandleDb} {h p i : ℕ} {g : EfiGuid} {status : EfiStatus}
  {alloc : InstallAlloc} {res : InstallResult}

/-- A protocol entry is found or created; nothing else changes. -/
structure EntryFound (db : HandleDb) (g : EfiGuid) (db' : HandleDb) : Prop where
  handleList : db'.handleList = db.handleList
  protocols : db'.protocols = db.protocols
  prot : db'.prot = db.prot
  databaseKey : db'.databaseKey = db.databaseKey
  key : db'.key = db.key
  mem : g ∈ db'.entries
  linked : Linked db → Linked db'

theorem entryFound_coreFindProtocolEntry {create : Bool}
    (hf : coreFindProtocolEntry db g create = some db') : EntryFound db g db' := by
  unfold coreFindProtocolEntry at hf
  split at hf
  · cases hf
    exact ⟨rfl, rfl, rfl, rfl, rfl, ‹_›, id⟩
  rename_i hnew
  split at hf
  · cases hf
    refine ⟨rfl, rfl, rfl, rfl, rfl, by simp, fun hdb => ?_⟩
    -- no interface has the protocol, so that its list is empty
    have hempty : db.byProtocol g = [] := by
      refine eq_nil_iff_forall_not_mem.mpr fun p hp => ?_
      obtain ⟨r, hpr, rfl⟩ := (hdb.byEntry.mem_iff g p).mp hp
      exact hnew (hdb.mem_entries p r hpr)
    refine ⟨hdb.zero_notMem, hdb.handles_nodup, hdb.mem_handleList, hdb.byHandle, ?_,
      fun p r hpr => mem_append_left _ (hdb.mem_entries p r hpr), ?_⟩
    · refine nodup_append.mpr ⟨hdb.entries_nodup, nodup_singleton g, fun a ha b hb => ?_⟩
      rintro rfl
      exact hnew (mem_singleton.mp hb ▸ ha)
    · rw [← hempty, update_eq_self]
      exact hdb.byEntry
  · cases hf

/-- The effect of an install call that succeeds. -/
def Installed (db : HandleDb) (h : ℕ) (g : EfiGuid) (i : ℕ) (res : InstallResult) : Prop :=
  ∃ p, db.prot p = none ∧
    ((h = 0 ∧ res.handle ≠ 0 ∧ res.handle ∉ db.handleList ∧
        res.db = (db.addHandle res.handle).addInterface p res.handle g i) ∨
      (h ≠ 0 ∧ db.Valid h ∧ coreFindProtocolInterface db h g i = none ∧ res.handle = h ∧
        res.db = db.addInterface p h g i))

/-- **What an install call does** once the database is locked. -/
theorem installLocked_cases (hin : installLocked db h g i status alloc = some res) :
    (res.handle = h ∧ (res.status = status ∧ res.db = db ∨
      res.status.isError = true ∧ EntryFound db g res.db)) ∨
    (res.status = .success ∧ ∃ db₁, EntryFound db g db₁ ∧ Installed db₁ h g i res) := by
  unfold installLocked at hin
  split at hin
  · cases hin
    exact .inl ⟨rfl, .inl ⟨rfl, rfl⟩⟩
  rename_i db₁ he
  have hf := entryFound_coreFindProtocolEntry he
  split at hin
  · cases hin
    exact .inl ⟨rfl, .inr ⟨rfl, hf⟩⟩
  rename_i p hp
  have hfree : db₁.prot p = none := by
    obtain ⟨-, hnone⟩ := filter_eq_some_iff.mp hp
    simpa using hnone
  split at hin
  · rename_i hz
    split at hin
    · cases hin
      exact .inl ⟨rfl, .inr ⟨rfl, hf⟩⟩
    · rename_i h' hnew
      obtain ⟨-, hok⟩ := filter_eq_some_iff.mp hnew
      have hok : h' ≠ 0 ∧ h' ∉ db₁.handleList := by simpa using hok
      cases hin
      exact .inr ⟨rfl, db₁, hf, p, hfree, .inl ⟨hz, hok.1, hok.2, rfl⟩⟩
  · rename_i hnz
    split at hin
    · cases hin
      exact .inl ⟨rfl, .inr ⟨rfl, hf⟩⟩
    · rename_i hv
      split at hin
      · cases hin
      · rename_i hnone
        cases hin
        exact .inr ⟨rfl, db₁, hf, p, hfree,
          .inr ⟨hnz, not_not.mp hv, not_not.mp hnone, rfl, rfl⟩⟩

theorem linked_of_installed (hdb : Linked db) (hg : g ∈ db.entries) (hin : Installed db h g i res) :
    Linked res.db := by
  obtain ⟨p, hp, ⟨-, hz, hnew, hr⟩ | ⟨-, hv, -, -, hr⟩⟩ := hin
  · rw [hr]
    exact linked_addHandle hdb hz hnew hp hg
  · rw [hr]
    exact linked_addInterface hdb hv.2 hp hg

theorem Installed.prot_eq (hin : Installed db h g i res) :
    ∃ p, db.prot p = none ∧
      res.db.prot = update db.prot p (some ⟨res.handle, g, i, [], 0⟩) := by
  obtain ⟨p, hp, ⟨-, -, -, hr⟩ | ⟨-, -, -, hh, hr⟩⟩ := hin
  · exact ⟨p, hp, by rw [hr]; rfl⟩
  · exact ⟨p, hp, by rw [hr, hh]; rfl⟩

theorem Installed.forall_prot {P : ProtocolInterface → Prop} (hin : Installed db h g i res)
    (hold : ∀ p r, db.prot p = some r → P r) (hnew : P ⟨res.handle, g, i, [], 0⟩) :
    ∀ p r, res.db.prot p = some r → P r := by
  obtain ⟨p, -, hpr⟩ := hin.prot_eq
  rw [hpr]
  intro p' r hs
  by_cases hp : p' = p
  · subst hp
    rw [update_self] at hs
    obtain rfl := some.inj hs
    exact hnew
  · rw [update_of_ne hp] at hs
    exact hold p' r hs

theorem Installed.uniqueGuid (hin : Installed db h g i res) (hu : UniqueGuid db)
    (hnew : ∀ p, ¬ db.At p res.handle g) : UniqueGuid res.db := by
  obtain ⟨p, -, hpr⟩ := hin.prot_eq
  unfold UniqueGuid
  rw [hpr]
  intro p₁ p₂ r₁ r₂ h₁ h₂ hh hp
  by_cases hp₁ : p₁ = p <;> by_cases hp₂ : p₂ = p
  · exact hp₁.trans hp₂.symm
  · subst hp₁
    rw [update_self] at h₁
    rw [update_of_ne hp₂] at h₂
    obtain rfl := some.inj h₁
    exact absurd ⟨r₂, h₂, hh.symm, hp.symm⟩ (hnew p₂)
  · subst hp₂
    rw [update_self] at h₂
    rw [update_of_ne hp₁] at h₁
    obtain rfl := some.inj h₂
    exact absurd ⟨r₁, h₁, hh, hp⟩ (hnew p₁)
  · rw [update_of_ne hp₁] at h₁
    rw [update_of_ne hp₂] at h₂
    exact hu p₁ p₂ r₁ r₂ h₁ h₂ hh hp

end Install

section Uninstall

variable {db db₁ db' : HandleDb} {h p i : ℕ} {g : EfiGuid} {status : EfiStatus}
  {calls : UninstallCalls} {r : ProtocolInterface} {ok : Bool}

theorem openEdit_dropInformational (db : HandleDb) (p : ℕ) : OpenEdit db (db.dropInformational p) := by
  unfold HandleDb.dropInformational
  split
  · exact .refl db
  · exact .remove ‹_›

theorem openEdit_coreDisconnectControllers
    (hru : coreDisconnectControllers db p calls = some (db', ok)) : OpenEdit db db' := by
  obtain ⟨⟨db₁, disconnected⟩, hs, hr⟩ := bind_eq_some_iff.mp hru
  have he := openEdit_runStops hs
  dsimp only at hr
  have hd : OpenEdit db (if disconnected = true then db₁.dropInformational p else db₁) := by
    split
    · exact he.trans (openEdit_dropInformational db₁ p)
    · exact he
  generalize (if disconnected = true then db₁.dropInformational p else db₁) = db₂ at hd hr
  split at hr
  · cases hr
    exact hd
  · obtain ⟨db₃, hc, heq⟩ := map_eq_some_iff.mp hr
    cases heq
    exact hd.trans (openEdit_runCalls hc)

/-- **What an uninstall call does**: it is refused, with edits of open entries at most, or it takes
the interface off its lists. -/
theorem coreUninstallProtocolInterface_cases
    (hru : coreUninstallProtocolInterface db h (some g) i calls = some (status, db')) :
    (status.isError = true ∧
        (db' = db ∨ ∃ p, coreDisconnectControllers db p calls = some (db', false))) ∨
    (status = .success ∧ db.Valid h ∧ ∃ p r db₁ r₁,
      coreFindProtocolInterface db h g i = some (p, r) ∧
      coreDisconnectControllers db p calls = some (db₁, true) ∧
      coreFindProtocolInterface db₁ h g i = some (p, r₁) ∧ r₁.links = r.links ∧
      db' = (db₁.removeInterface p h r₁).freeHandle h) := by
  unfold coreUninstallProtocolInterface at hru
  dsimp only at hru
  split at hru
  · cases hru
    exact .inl ⟨rfl, .inl rfl⟩
  rename_i hv
  split at hru
  · cases hru
    exact .inl ⟨rfl, .inl rfl⟩
  rename_i p r hf
  obtain ⟨⟨db₁, ok⟩, hd, hr⟩ := map_eq_some_iff.mp hru
  obtain ⟨r₁, hf₁, hl⟩ :=
    (openEdit_coreDisconnectControllers hd).links.coreFindProtocolInterface hf
  cases ok with
  | true =>
    rw [hf₁] at hr
    cases hr
    exact .inr ⟨rfl, not_not.mp hv, p, r, db₁, r₁, hf, hd, hf₁, hl, rfl⟩
  | false =>
    cases hr
    exact .inl ⟨rfl, .inr ⟨p, hd⟩⟩

theorem prot_freeHandle (db : HandleDb) (h : ℕ) : (db.freeHandle h).prot = db.prot := by
  unfold HandleDb.freeHandle
  split <;> rfl

end Uninstall

end Edk2.Hand

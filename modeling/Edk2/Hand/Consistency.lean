import Edk2.Hand.Links
import Edk2.Lib.Run
import Mathlib.Data.List.Count

/-!
# Consistency of the handle database

The lists of the database agree with each other, no handle carries a protocol twice, open entries
are counted, and at most one entry of an interface keeps others out.

Two slips are found on the way. `CoreInstallProtocolInterfaceNotify` takes every error of
`CoreHandleProtocol` for the absence of the protocol, also a failed allocation: the protocol is then
installed a second time. And `CoreOpenProtocol` does not look again for an exclusive entry once it
has disconnected the drivers, which may have created one.

## Main results

* `kept_shared`, `kept_owned`: what callbacks do to the open entries of an interface
* `consistent_step`: every orderly call keeps the database consistent
* `handleDb_of_run`: consistency for every run
-/

namespace Edk2.Hand

open List Option

/-! ## Open entries -/

/-- At most one open entry of an interface keeps others out. -/
def Owned (db : HandleDb) : Prop :=
  ∀ p r, db.prot p = some r → r.openList.countP (fun d => d.Owns) ≤ 1

/-- No open entry of the interface is exclusive. -/
def Shared (db : HandleDb) (p : ℕ) : Prop :=
  ∀ r, db.prot p = some r → ∀ d ∈ r.openList, ¬ d.Exclusive

mutual

/-- A callback does not open a protocol on a handle exclusively. -/
def Calls.Avoids (h : ℕ) (g : EfiGuid) : Calls → Prop
  | .nil => True
  | .openProtocol a _ stops rest =>
    ¬ (a.userHandle = h ∧ a.protocol = some g ∧ a.openData.Exclusive) ∧ stops.Avoids h g ∧
      rest.Avoids h g
  | .closeProtocol _ rest => rest.Avoids h g

def Stops.Avoids (h : ℕ) (g : EfiGuid) : Stops → Prop
  | .nil => True
  | .stop calls _ rest => calls.Avoids h g ∧ rest.Avoids h g

end

/-- **The drivers that an exclusive open disconnects do not open the protocol exclusively
themselves.** -/
def OpenArgs.Undisturbed (a : OpenArgs) (stops : Stops) : Prop :=
  a.openData.Exclusive → ∀ g, a.protocol = some g → stops.Avoids a.userHandle g

mutual

/-- Every exclusive open of a callback is undisturbed. -/
def Calls.Clean : Calls → Prop
  | .nil => True
  | .openProtocol a _ stops rest => a.Undisturbed stops ∧ stops.Clean ∧ rest.Clean
  | .closeProtocol _ rest => rest.Clean

def Stops.Clean : Stops → Prop
  | .nil => True
  | .stop calls _ rest => calls.Clean ∧ rest.Clean

end

variable {calls : UninstallCalls}

section Owners

variable {db db₁ db' : HandleDb} {a : OpenArgs} {alloc : Bool} {h p p' : ℕ} {g : EfiGuid}
  {r : ProtocolInterface} {l l' : List OpenData}
  {disconnect : ℕ → HandleDb → Option (HandleDb × Bool)}

theorem countP_of_counted (f : BitVec 32 → Bool) (h : scan a l = .counted l') :
    l'.countP (fun d => f d.attributes) = l.countP (fun d => f d.attributes) := by
  have hm := congrArg (List.countP f) (map_attributes_of_counted h)
  rwa [countP_map, countP_map] at hm

theorem Shared.setProt (hs : Shared db p)
    (hnew : p' = p → ∀ d ∈ r.openList, ¬ d.Exclusive) : Shared (db.setProt p' r) p := fun r' hr' =>
  HandleDb.forall_setProt (P := fun q r => q = p → ∀ d ∈ r.openList, ¬ d.Exclusive)
    (fun _ r' hr' hq => hs r' (hq ▸ hr')) hnew p r' hr' rfl

theorem Owned.setProt (ho : Owned db) (hnew : r.openList.countP (fun d => d.Owns) ≤ 1) :
    Owned (db.setProt p r) :=
  HandleDb.forall_setProt ho hnew

theorem Shared.created (hs : Shared db p) (hc : Created a db p' db')
    (hnew : p' = p → ¬ a.openData.Exclusive) : Shared db' p := by
  obtain ⟨r, hpr, rfl⟩ := hc
  refine hs.setProt fun hp d hd => ?_
  subst hp
  rcases mem_append.mp hd with hd | hd
  · exact hs r hpr d hd
  · obtain rfl := mem_singleton.mp hd
    exact hnew rfl

variable {q : OpenData → Bool} {res : OpenResult}

theorem Shared.remove (hs : Shared db p) (hpr : db.prot p' = some r) :
    Shared (db.setProt p' (r.remove q)) p := by
  refine hs.setProt fun hp d hd => ?_
  subst hp
  exact hs r hpr d (mem_of_mem_filter hd)

theorem shared_openWith (hdb : Linked db) (hat : db.At p h g)
    (ha : ¬ (a.userHandle = h ∧ a.protocol = some g ∧ a.openData.Exclusive))
    (hstop : ∀ p' db₁ ok, disconnect p' db = some (db₁, ok) → Shared db₁ p)
    (hsh : Shared db p) (ho : openWith disconnect db a alloc = some res) : Shared res.db p := by
  rcases openWith_cases ho with hsa | ⟨protocol, p', r, hpr, hge, hca⟩
  · rwa [hsa]
  have hat' := hdb.at hge
  have hnew : p' = p → ¬ a.openData.Exclusive := by
    rintro rfl he
    obtain ⟨hh, hg⟩ := hat.unique hat'
    exact ha ⟨hh, hg ▸ hpr, he⟩
  obtain ⟨-, hpro, -⟩ := coreGetProtocolInterface_eq_some hge
  rcases hca with ⟨l, hs, hr⟩ | ⟨hc, -⟩ | ⟨-, -, db₁, ok, hdi, hr⟩
  · rw [hr]
    refine hsh.setProt fun hp => ?_
    subst hp
    have hcnt := countP_of_counted (fun x => x &&& openExclusive ≠ 0) hs
    have hz : r.openList.countP (fun d => d.attributes &&& openExclusive ≠ 0) = 0 :=
      countP_eq_zero.mpr fun d hd => by
        simpa [OpenData.Exclusive] using hsh r hpro d hd
    rw [hz] at hcnt
    intro d hd
    simpa [OpenData.Exclusive] using countP_eq_zero.mp hcnt d hd
  · exact hsh.created hc hnew
  · have haf := hstop p' db₁ ok hdi
    rcases hr with hr | ⟨-, hc⟩
    · rwa [hr]
    · exact haf.created hc hnew

theorem shared_coreCloseProtocol (c : CloseArgs) (hs : Shared db p) :
    Shared (coreCloseProtocol db c).2 p := by
  rcases coreCloseProtocol_cases db c with hc | ⟨p', r, q, hp, hc⟩
  · rwa [hc]
  · rw [hc]
    exact hs.remove hp

/-- **A callback that does not open a protocol exclusively leaves it shared.** -/
theorem kept_shared : Kept (fun db => Linked db ∧ db.At p h g ∧ Shared db p) (Calls.Avoids h g)
    (Stops.Avoids h g) where
  openProtocol := by
    rintro a alloc stops rest db res ha ⟨hdb, hat, hsh⟩ hs ho
    rw [Calls.Avoids] at ha
    have he := (openEdit_coreOpenProtocol ho).links
    exact ⟨hdb.of_sameLinks he, hat.of_sameLinks he,
      shared_openWith hdb hat ha.1 (fun p' db₁ ok hd => (hs p' db₁ ok hd).2.2) hsh ho⟩
  closeProtocol := by
    rintro db a ⟨hdb, hat, hsh⟩
    have he := (openEdit_coreCloseProtocol db a).links
    exact ⟨hdb.of_sameLinks he, hat.of_sameLinks he, shared_coreCloseProtocol a hsh⟩
  behindOpen ha := by
    rw [Calls.Avoids] at ha
    exact ha.2
  behindClose ha := by rwa [Calls.Avoids] at ha
  stop ha := by rwa [Stops.Avoids] at ha

/-- A new entry keeps the owners of an interface at one, if it keeps nobody out or there is none. -/
theorem Owned.created (how : Owned db) (hc : Created a db p db')
    (hnew : a.openData.Owns → ∀ r, db.prot p = some r → ∀ d ∈ r.openList, ¬ d.Owns) : Owned db' := by
  obtain ⟨r, hp, rfl⟩ := hc
  refine how.setProt ?_
  rw [countP_append, countP_singleton]
  by_cases ho : a.openData.Owns
  · have hnone : r.openList.countP (fun d => d.Owns) = 0 :=
      countP_eq_zero.mpr fun d hd => by simpa using hnew ho r hp d hd
    split <;> omega
  · rw [if_neg (by simpa using ho)]
    exact how p r hp

theorem Owned.remove (ho : Owned db) (hp : db.prot p = some r) :
    Owned (db.setProt p (r.remove q)) :=
  ho.setProt (Nat.le_trans (List.Sublist.countP_le filter_sublist) (ho p r hp))

theorem owned_openWith (hdb : Linked db) (how : Owned db)
    (hstop : ∀ p db₁ ok, disconnect p db = some (db₁, ok) → Owned db₁)
    (he : ∀ p db₁, a.openData.Exclusive →
      (∃ protocol, a.protocol = some protocol ∧ db.At p a.userHandle protocol) → Shared db p →
      disconnect p db = some (db₁, true) → Shared db₁ p ∧ ¬ db₁.Driven p)
    (hop : openWith disconnect db a alloc = some res) : Owned res.db := by
  rcases openWith_cases hop with hsa | ⟨protocol, p, r, hpr, hg, hc⟩
  · rwa [hsa]
  have hat := hdb.at hg
  obtain ⟨-, hp, -⟩ := coreGetProtocolInterface_eq_some hg
  rcases hc with ⟨l, hsc, hr⟩ | ⟨hcr, hfree⟩ | ⟨hex, hs, db₁, ok, hdi, hr⟩
  · rw [hr]
    refine how.setProt ?_
    have hcnt := countP_of_counted
      (fun x => x &&& openByDriver ≠ 0 ∨ x &&& openExclusive ≠ 0) hsc
    exact Nat.le_trans (Nat.le_of_eq hcnt) (how p r hp)
  · refine how.created hcr fun ho r' hp' => ?_
    obtain rfl := Option.some.inj (hp.symm.trans hp')
    exact hfree ho
  · rcases hr with hr | ⟨rfl, hcr⟩
    · rw [hr]
      exact hstop p db₁ ok hdi
    · have hs' : Shared db p := by
        intro r' hp'
        obtain rfl := some.inj (hp.symm.trans hp')
        exact hs
      obtain ⟨ha, hdri⟩ := he p db₁ hex ⟨protocol, hpr, hat⟩ hs' hdi
      refine (hstop p db₁ true hdi).created hcr fun _ r' hp' d hd => ?_
      rintro (hdr | he')
      · refine hdri ⟨d, ?_, hdr⟩
        rwa [hp']
      · exact ha r' hp' d hd he'

theorem owned_coreCloseProtocol (c : CloseArgs) (ho : Owned db) :
    Owned (coreCloseProtocol db c).2 := by
  rcases coreCloseProtocol_cases db c with hc | ⟨p, r, q, hp, hc⟩
  · rwa [hc]
  · rw [hc]
    exact ho.remove hp

theorem owned_undisturbed {stops : Stops} (hdb : Linked db) (ho : Owned db)
    (hop : a.Undisturbed stops)
    (hs : ∀ p db₁ ok, runStops stops p db = some (db₁, ok) → Owned db₁)
    (hope : coreOpenProtocol db a alloc stops = some res) : Owned res.db := by
  refine owned_openWith hdb ho hs ?_ hope
  rintro p db₁ he ⟨protocol, hp, hat⟩ hsh hstop
  exact ⟨(kept_shared.runStops (hop he protocol hp) ⟨hdb, hat, hsh⟩ hstop).2.2,
    not_driven_of_runStops hstop⟩

/-- **Clean callbacks keep the owners of an interface at one.** -/
theorem kept_owned : Kept (fun db => Linked db ∧ Owned db) Calls.Clean Stops.Clean where
  openProtocol := by
    rintro a alloc stops rest db res hc ⟨hdb, ho⟩ hs hop
    rw [Calls.Clean] at hc
    exact ⟨hdb.of_sameLinks (openEdit_coreOpenProtocol hop).links,
      owned_undisturbed hdb ho hc.1 (fun p db₁ ok hd => (hs p db₁ ok hd).2) hop⟩
  closeProtocol := by
    rintro db a ⟨hdb, ho⟩
    exact ⟨hdb.of_sameLinks (openEdit_coreCloseProtocol db a).links, owned_coreCloseProtocol a ho⟩
  behindOpen hc := by
    rw [Calls.Clean] at hc
    exact hc.2
  behindClose hc := by rwa [Calls.Clean] at hc
  stop hc := by rwa [Stops.Clean] at hc

theorem owned_coreOpenProtocol {stops : Stops} (hdb : Linked db) (ho : Owned db)
    (hop : a.Undisturbed stops) (hs : stops.Clean)
    (hope : coreOpenProtocol db a alloc stops = some res) : Owned res.db :=
  owned_undisturbed hdb ho hop (fun _ _ _ hd => (kept_owned.runStops hs ⟨hdb, ho⟩ hd).2) hope

theorem owned_coreDisconnectControllers {ok : Bool} (hdb : Linked db) (ho : Owned db)
    (hs : calls.stops.Clean) (hc : calls.connect.Clean)
    (hru : coreDisconnectControllers db p calls = some (db', ok)) : Owned db' := by
  obtain ⟨⟨db₁, disconnected⟩, hr, hre⟩ := bind_eq_some_iff.mp hru
  obtain ⟨hl, ho₁⟩ := kept_owned.runStops hs ⟨hdb, ho⟩ hr
  dsimp only at hre
  have hd : Linked (if disconnected = true then db₁.dropInformational p else db₁) ∧
      Owned (if disconnected = true then db₁.dropInformational p else db₁) := by
    split
    · refine ⟨hl.of_sameLinks (openEdit_dropInformational db₁ p).links, ?_⟩
      unfold HandleDb.dropInformational
      split
      · exact ho₁
      · exact ho₁.remove ‹_›
    · exact ⟨hl, ho₁⟩
  generalize (if disconnected = true then db₁.dropInformational p else db₁) = db₂ at hd hre
  split at hre
  · cases hre
    exact hd.2
  · obtain ⟨db₃, hrc, heq⟩ := map_eq_some_iff.mp hre
    cases heq
    exact (kept_owned.runCalls hc hd hrc).2

end Owners

/-! ## Runs of the database -/

/-- **Consistency of the handle database.** -/
structure Consistent (db : HandleDb) : Prop where
  linked : Linked db
  unique : UniqueGuid db
  counted : Counted db
  owned : Owned db

/-- A call of the database, with the results of its allocations and what its callbacks do. The last
one is the assignment of `gDxeCoreImageHandle`. -/
inductive DbOp
  | install (userHandle : Option ℕ) (protocol : Option EfiGuid) (native : Bool) (interface : ℕ)
      (alloc : InstallAlloc)
  | uninstall (userHandle : ℕ) (protocol : Option EfiGuid) (interface : ℕ) (calls : UninstallCalls)
  | openProtocol (a : OpenArgs) (alloc : Bool) (stops : Stops)
  | closeProtocol (a : CloseArgs)
  | setDxeCoreImageHandle (h : ℕ)

def DbOp.step (db : HandleDb) : DbOp → Option HandleDb
  | .install userHandle protocol native interface alloc =>
    (coreInstallProtocolInterface db userHandle protocol native interface alloc).map InstallResult.db
  | .uninstall userHandle protocol interface calls =>
    (coreUninstallProtocolInterface db userHandle protocol interface calls).map Prod.snd
  | .openProtocol a alloc stops => (coreOpenProtocol db a alloc stops).map OpenResult.db
  | .closeProtocol a => some (coreCloseProtocol db a).2
  | .setDxeCoreImageHandle h => some { db with dxeCoreImageHandle := h }

/-- **The calls that keep the database consistent**: `CoreHandleProtocol` can allocate its open
entry if the handle carries the protocol to be installed, and drivers that an exclusive open
disconnects do not open the protocol exclusively themselves. -/
def DbOp.Orderly (db : HandleDb) : DbOp → Prop
  | .install userHandle protocol _ _ alloc =>
    ∀ h g, userHandle = some h → protocol = some g →
      coreGetProtocolInterface db h g ≠ none → alloc.openData = true
  | .uninstall _ _ _ calls => calls.stops.Clean ∧ calls.connect.Clean
  | .openProtocol a _ stops => a.Undisturbed stops ∧ stops.Clean
  | .closeProtocol _ => True
  | .setDxeCoreImageHandle _ => True

def initialDb : HandleDb :=
  ⟨[], fun _ => [], [], fun _ => [], fun _ => none, 0, 0, fun _ => 0⟩

section Runs

variable {db db' : HandleDb} {h i : ℕ} {g : EfiGuid} {alloc : InstallAlloc}

theorem consistent_initialDb : Consistent initialDb where
  linked :=
    { zero_notMem := not_mem_nil
      handles_nodup := nodup_nil
      mem_handleList := fun _ => ⟨fun hmem => absurd hmem not_mem_nil, fun hne => absurd rfl hne⟩
      byHandle := ⟨fun _ => nodup_nil, fun _ _ =>
        ⟨fun hmem => absurd hmem not_mem_nil, fun ⟨_, hnone, _⟩ => nomatch hnone⟩⟩
      entries_nodup := nodup_nil
      mem_entries := fun _ _ hnone => nomatch hnone
      byEntry := ⟨fun _ => nodup_nil, fun _ _ =>
        ⟨fun hmem => absurd hmem not_mem_nil, fun ⟨_, hnone, _⟩ => nomatch hnone⟩⟩ }
  unique := fun _ _ _ _ hnone => nomatch hnone
  counted := fun _ _ hnone => nomatch hnone
  owned := fun _ _ hnone => nomatch hnone

theorem Consistent.of_openEdit (hdb : Consistent db) (he : OpenEdit db db') (ho : Owned db') :
    Consistent db' :=
  ⟨hdb.linked.of_sameLinks he.links, hdb.unique.of_sameLinks he.links, he.counted hdb.counted,
    ho⟩

theorem Consistent.of_entryFound (hdb : Consistent db) (hf : EntryFound db g db') :
    Consistent db' := by
  refine ⟨hf.linked hdb.linked, ?_, ?_, ?_⟩
  · have := hdb.unique
    unfold UniqueGuid at ⊢
    rwa [hf.prot]
  · have := hdb.counted
    unfold Counted at ⊢
    rwa [hf.prot]
  · have := hdb.owned
    unfold Owned at ⊢
    rwa [hf.prot]

variable {status : EfiStatus}

/-- **An install call keeps the database consistent** if the handle does not carry the protocol. -/
theorem consistent_installLocked {res : InstallResult} (hdb : Consistent db)
    (hnew : h ≠ 0 → ∀ p, ¬ db.At p h g)
    (hru : installLocked db h g i status alloc = some res) : Consistent res.db := by
  rcases installLocked_cases hru with ⟨-, ⟨-, hre⟩ | ⟨-, hf⟩⟩ | ⟨-, db₁, hf, hin⟩
  · rwa [hre]
  · exact hdb.of_entryFound hf
  · have hdb₁ := hdb.of_entryFound hf
    have hfree : ∀ p, ¬ db₁.At p res.handle g := by
      intro p hat
      have hat' : db.At p res.handle g := by
        obtain ⟨r, hp, hl⟩ := hat
        exact ⟨r, hf.prot ▸ hp, hl⟩
      obtain ⟨p', -, ⟨-, -, hh, -⟩ | ⟨hnz, -, -, hh, -⟩⟩ := hin
      · obtain ⟨r, hp, hr, -⟩ := hat
        exact hh ((hdb₁.linked.mem_handleList _).mpr
          (ne_nil_of_mem (hr ▸ hdb₁.linked.byHandle.mem hp)))
      · exact hnew hnz p (hh ▸ hat')
    exact ⟨linked_of_installed hdb₁.linked hf.mem hin, hin.uniqueGuid hdb₁.unique hfree,
      hin.forall_prot hdb₁.counted rfl, hin.forall_prot hdb₁.owned (Nat.zero_le 1)⟩

theorem consistent_installNative {res : InstallResult} (hdb : Consistent db)
    (ha : coreGetProtocolInterface db h g ≠ none → alloc.openData = true)
    (hr : installNative db h g i alloc = some res) : Consistent res.db := by
  unfold installNative at hr
  split at hr
  · exact consistent_installLocked hdb (fun hne => absurd ‹_› hne) hr
  · obtain ⟨r, ho, hre⟩ := bind_eq_some_iff.mp hr
    have hed := openEdit_coreOpenProtocol ho
    have hop : Consistent r.db := hdb.of_openEdit hed
      (owned_coreOpenProtocol hdb.linked hdb.owned
        (fun hex => absurd hex (not_exclusive_byHandle rfl))
        (show Stops.Clean .nil from trivial) ho)
    split at hre
    · rename_i he
      -- an error of `CoreHandleProtocol` means that the protocol is not there
      have hnone : db.Valid h → coreGetProtocolInterface db h g = none := by
        intro hv
        by_contra hg
        rw [ha hg] at ho
        rw [coreHandleProtocol_status hv hg ho] at he
        cases he
      refine consistent_installLocked hop (fun _ p hat => ?_) hre
      exact hdb.linked.not_at hnone p (hat.of_sameLinks hed.links.symm)
    · cases hre
      exact hop

theorem consistent_uninstall (hdb : Consistent db)
    (hst : calls.stops.Clean) (hc : calls.connect.Clean)
    (hr : coreUninstallProtocolInterface db h (some g) i calls = some (status, db')) :
    Consistent db' := by
  have hdi : ∀ {p db₁ ok}, coreDisconnectControllers db p calls = some (db₁, ok) →
      Consistent db₁ := fun hd =>
    hdb.of_openEdit (openEdit_coreDisconnectControllers hd)
      (owned_coreDisconnectControllers hdb.linked hdb.owned hst hc hd)
  rcases coreUninstallProtocolInterface_cases hr with
    ⟨-, hsa | ⟨p, hd⟩⟩ | ⟨-, -, p, r, db₁, r₁, -, hd, hf, -, hre⟩
  · rwa [hsa]
  · exact hdi hd
  · have hdb₁ := hdi hd
    obtain ⟨hmem, hpr, -⟩ := coreFindProtocolInterface_eq_some hf
    have hsh : ∀ p' r', db'.prot p' = some r' → db₁.prot p' = some r' := by
      intro p' r' hs
      rw [hre, prot_freeHandle] at hs
      replace hs : Function.update db₁.prot p none p' = some r' := hs
      by_cases hp : p' = p
      · subst hp
        rw [Function.update_self] at hs
        cases hs
      · rwa [Function.update_of_ne hp] at hs
    refine ⟨?_, ?_, fun p' r' hp => hdb₁.counted p' r' (hsh p' r' hp),
      fun p' r' hp => hdb₁.owned p' r' (hsh p' r' hp)⟩
    · rw [hre]
      exact linked_removeInterface hdb₁.linked hpr (hdb₁.linked.byHandle.key_eq hpr hmem)
    · exact fun p₁ p₂ r₁ r₂ h₁ h₂ => hdb₁.unique p₁ p₂ r₁ r₂ (hsh p₁ r₁ h₁) (hsh p₂ r₂ h₂)

/-- **Every orderly call keeps the database consistent.** -/
theorem consistent_step {op : DbOp} (hdb : Consistent db) (ho : op.Orderly db)
    (hs : op.step db = some db') : Consistent db' := by
  cases op with
  | install userHandle protocol native interface alloc =>
    obtain ⟨res, hr, rfl⟩ := map_eq_some_iff.mp hs
    unfold coreInstallProtocolInterface at hr
    split at hr
    · split at hr
      · exact consistent_installNative hdb (ho _ _ rfl rfl) hr
      · cases hr
        exact hdb
    · cases hr
      exact hdb
  | uninstall userHandle protocol interface calls =>
    obtain ⟨⟨status, db₁⟩, hr, rfl⟩ := map_eq_some_iff.mp hs
    cases protocol with
    | none =>
      cases hr
      exact hdb
    | some g => exact consistent_uninstall hdb ho.1 ho.2 hr
  | openProtocol a alloc stops =>
    obtain ⟨res, hr, rfl⟩ := map_eq_some_iff.mp hs
    exact hdb.of_openEdit (openEdit_coreOpenProtocol hr)
      (owned_coreOpenProtocol hdb.linked hdb.owned ho.1 ho.2 hr)
  | closeProtocol a =>
    obtain rfl := some.inj hs
    exact hdb.of_openEdit (openEdit_coreCloseProtocol db a) (owned_coreCloseProtocol a hdb.owned)
  | setDxeCoreImageHandle h =>
    obtain rfl := some.inj hs
    exact ⟨⟨hdb.linked.zero_notMem, hdb.linked.handles_nodup, hdb.linked.mem_handleList,
      hdb.linked.byHandle, hdb.linked.entries_nodup, hdb.linked.mem_entries, hdb.linked.byEntry⟩,
      hdb.unique, hdb.counted, hdb.owned⟩

theorem consistent_of_run {ops : List DbOp}
    (hr : Run (fun db op db' => op.Orderly db ∧ op.step db = some db') initialDb ops db) :
    Consistent db :=
  Run.invariant (fun _ _ _ hs hst => consistent_step hs hst.1 hst.2) hr
    consistent_initialDb

/-- **Consistency of the handle database along every orderly run**: the lists are linked, no handle
carries a protocol twice, open entries are counted, at most one entry of an interface is one of a
driver and at most one is exclusive, and if there are both they are one entry. -/
theorem handleDb_of_run {ops : List DbOp}
    (hrun : Run (fun db op db' => op.Orderly db ∧ op.step db = some db') initialDb ops db) :
    Linked db ∧ UniqueGuid db ∧ Counted db ∧
      ∀ p r, db.prot p = some r →
        r.openList.countP (fun d => d.ByDriver) ≤ 1 ∧
        r.openList.countP (fun d => d.Exclusive) ≤ 1 ∧
        ((∃ d ∈ r.openList, d.ByDriver) → (∃ d ∈ r.openList, d.Exclusive) →
          ∃ d ∈ r.openList, d.ByDriver ∧ d.Exclusive) := by
  have hdb := consistent_of_run hrun
  refine ⟨hdb.linked, hdb.unique, hdb.counted, fun p r hp => ?_⟩
  have ho := hdb.owned p r hp
  refine ⟨Nat.le_trans (countP_mono_left fun d _ hd => ?_) ho,
    Nat.le_trans (countP_mono_left fun d _ hd => ?_) ho, ?_⟩
  · exact decide_eq_true (.inl (of_decide_eq_true hd))
  · exact decide_eq_true (.inr (of_decide_eq_true hd))
  · rintro ⟨d, hd, hdr⟩ ⟨e, he, hex⟩
    -- the two would be two entries that keep others out
    by_contra hapart
    have hne : d ≠ e := by
      rintro rfl
      exact hapart ⟨d, hd, hdr, hex⟩
    have ht : 2 ≤ r.openList.countP (fun d => d.Owns) := by
      rw [countP_eq_length_filter]
      have hs : [d, e] ⊆ r.openList.filter fun d => d.Owns := by
        intro x hx
        simp only [mem_cons, not_mem_nil, or_false] at hx
        rcases hx with rfl | rfl
        · exact mem_filter.mpr ⟨hd, decide_eq_true (.inl hdr)⟩
        · exact mem_filter.mpr ⟨he, decide_eq_true (.inr hex)⟩
      have hn : [d, e].Nodup := by simpa using hne
      exact (subperm_of_subset hn hs).length_le
    omega

end Runs

section Samples

/-- An install call that succeeds, with the interface at `p` and, if need be, the handle at `h`. -/
private def sampleInstall (userHandle p h : ℕ) (protocol : EfiGuid) (openData : Bool) : DbOp :=
  .install (some userHandle) (some protocol) true (0x1000 + p) ⟨openData, true, some p, some h⟩

/-- Three handles: a controller at `0x10`, and the images of a driver and of an application. The
driver opens the protocol of the controller. -/
private def sampleOps : List DbOp :=
  [sampleInstall 0 1 0x10 [1] true, sampleInstall 0 2 0x20 [2] true, sampleInstall 0 3 0x30 [3] true,
    .openProtocol ⟨0x10, some [1], false, 0x20, 0x10, openByDriver⟩ true .nil]

/-- The driver closes the protocol when it is stopped. -/
private def sampleStop (rest : Calls) : Stops :=
  .stop (.closeProtocol ⟨0x10, some [1], 0x20, 0x10⟩ rest) true .nil

/-- The application opens the protocol of the controller exclusively. -/
private def sampleExclusive (stops : Stops) : DbOp :=
  .openProtocol ⟨0x10, some [1], false, 0x30, 0, openExclusive⟩ true stops

/-- A run in which a driver is stopped in favour of an exclusive open. -/
theorem handleDb_of_run_stop :
    ∃ db r, Run (fun db (op : DbOp) db' => op.Orderly db ∧ op.step db = some db') initialDb
        (sampleOps ++ [sampleExclusive (sampleStop .nil)]) db ∧
      db.prot 1 = some r ∧ r.openList = [⟨0x30, 0, openExclusive, 1⟩] ∧
      r.openList.countP (fun d => d.Exclusive) ≤ 1 := by
  have he : (((sampleOps ++ [sampleExclusive (sampleStop .nil)]).foldlM
      (fun db (op : DbOp) => op.step db) initialDb).bind fun db => (db.prot 1).map fun r => r.openList)
      = some [⟨0x30, 0, openExclusive, 1⟩] := by
    decide +kernel
  obtain ⟨db, hf, hp⟩ := bind_eq_some_iff.mp he
  obtain ⟨r, hr, hl⟩ := map_eq_some_iff.mp hp
  have ho : ∀ op ∈ sampleOps ++ [sampleExclusive (sampleStop .nil)], ∀ db, op.Orderly db := by
    intro op hop db
    simp only [sampleOps, cons_append, nil_append, mem_cons, not_mem_nil,
      or_false] at hop
    rcases hop with rfl | rfl | rfl | rfl | rfl
    · exact fun _ _ _ _ _ => rfl
    · exact fun _ _ _ _ _ => rfl
    · exact fun _ _ _ _ _ => rfl
    · exact ⟨fun _ _ _ => trivial, trivial⟩
    · exact ⟨fun _ _ _ => ⟨trivial, trivial⟩, trivial, trivial⟩
  have hru := ((Run.of_foldlM hf).restrict ho).mono fun db op db' hs =>
    (⟨hs.1 db, hs.2⟩ : op.Orderly db ∧ op.step db = some db')
  exact ⟨db, r, hru, hr, hl, ((handleDb_of_run hru).2.2.2 1 r hr).2.1⟩

/-- A protocol is installed twice on a handle when `CoreHandleProtocol` cannot allocate an open
entry; and an interface has two exclusive entries when a driver opens it exclusively as it is
stopped. -/
theorem not_consistent_of_run :
    (∃ ops db, Run (fun db (op : DbOp) db' => op.step db = some db') initialDb ops db ∧
      ¬ UniqueGuid db) ∧
    ∃ ops db r, Run (fun db (op : DbOp) db' => op.step db = some db') initialDb ops db ∧
      db.prot 1 = some r ∧ r.openList.countP (fun d => d.Exclusive) = 2 := by
  constructor
  · have he : ([sampleInstall 0 1 0x10 [1] true, .setDxeCoreImageHandle 0x10,
        sampleInstall 0x10 2 0 [1] false].foldlM (fun db (op : DbOp) => op.step db) initialDb).map
          (fun db => ((db.prot 1).map fun r => (r.handle, r.protocol),
            (db.prot 2).map fun r => (r.handle, r.protocol)))
        = some (some (0x10, [1]), some (0x10, [1])) := by
      decide +kernel
    obtain ⟨db, hf, hpa⟩ := map_eq_some_iff.mp he
    obtain ⟨hfi, hse⟩ := Prod.mk.inj hpa
    obtain ⟨r, hr, hli⟩ := map_eq_some_iff.mp hfi
    obtain ⟨s, hs, hl'⟩ := map_eq_some_iff.mp hse
    obtain ⟨hh, hp⟩ := Prod.mk.inj (hli.trans hl'.symm)
    refine ⟨_, db, Run.of_foldlM hf, fun hu => ?_⟩
    exact absurd (hu 1 2 r s hr hs hh hp) (by decide)
  · have he : ((sampleOps ++ [sampleExclusive (sampleStop (.openProtocol
        ⟨0x10, some [1], false, 0x20, 0, openExclusive⟩ true .nil .nil))]).foldlM
        (fun db (op : DbOp) => op.step db) initialDb).bind
          (fun db => (db.prot 1).map fun r => r.openList)
        = some [⟨0x20, 0, openExclusive, 1⟩, ⟨0x30, 0, openExclusive, 1⟩] := by
      decide +kernel
    obtain ⟨db, hf, hpr⟩ := bind_eq_some_iff.mp he
    obtain ⟨r, hr, hl⟩ := map_eq_some_iff.mp hpr
    refine ⟨_, db, r, Run.of_foldlM hf, hr, ?_⟩
    rw [hl]
    decide

end Samples

end Edk2.Hand

import Edk2.Hand.Consistency

/-!
# The keys of handles

`gHandleDatabaseKey` counts changes of the handle database, and `Key` of a handle is its value at
the last of them that changed the handle. `CoreConnectHandlesByKey` connects the handles whose `Key`
is above a value read earlier. A protocol that is installed on a handle that exists does not set
its `Key`.

What a call changes is read off the lists of the database before and behind it, and does not speak
of keys. A protocol that is reinstalled stays on the list of its handle, so that such a call is
known by its status.

## Main results

* `keyEffect_step`: which keys a call sets
* `lt_key_iff_of_run`: which keys a run sets
* `tells_iff`: when the keys tell the handles that were changed
-/

namespace Edk2.Hand

open List
open Option (map_eq_some_iff bind_eq_some_iff)
open Function (update update_self update_of_ne)

/-- `CoreReinstallProtocolInterface`; `connect` is what `CoreConnectController` does in the end. -/
def coreReinstallProtocolInterface (db : HandleDb) (h : ℕ) (protocol : Option EfiGuid)
    (oldInterface newInterface : ℕ) (calls : UninstallCalls) (connect : Calls) :
    Option (EfiStatus × HandleDb) :=
  match protocol with
  | none => some (.invalidParameter, db)
  | some protocol =>
    if ¬ db.Valid h then some (.invalidParameter, db)
    else
      match coreFindProtocolInterface db h protocol oldInterface with
      | none => some (.notFound, db)
      | some (p, _) =>
        (coreDisconnectControllers db p calls).bind fun (db, disconnected) =>
          if ¬ disconnected then some (.accessDenied, db)
          else
            match coreFindProtocolInterface db h protocol oldInterface with
            | none => some (.notFound, db)
            | some (p, r) =>
              -- the interface goes behind the others of its entry
              let byProtocol := (db.byProtocol protocol).erase p ++ [p]
              let db := { db.advanceKey h with
                byProtocol := update db.byProtocol protocol byProtocol
                prot := update db.prot p (some { r with interface := newInterface }) }
              (runCalls connect db).map fun db => (.success, db)

/-- The handles that `CoreConnectHandlesByKey` connects; `alloc` is whether there is memory for the
buffer of handles. -/
def coreConnectHandlesByKey (db : HandleDb) (key : ℕ) (alloc : Bool) : List ℕ :=
  if alloc then db.handleList.filter fun h => key < db.key h else []

/-- A call of the database. -/
inductive KeyOp
  | call (op : DbOp)
  | reinstall (h : ℕ) (protocol : Option EfiGuid) (oldInterface newInterface : ℕ)
      (calls : UninstallCalls) (connect : Calls)

def KeyOp.step (db : HandleDb) : KeyOp → Option HandleDb
  | .call op => op.step db
  | .reinstall h protocol oldInterface newInterface calls connect =>
    (coreReinstallProtocolInterface db h protocol oldInterface newInterface calls connect).map
      Prod.snd

abbrev KeyStep (db : HandleDb) (op : KeyOp) (db' : HandleDb) : Prop := op.step db = some db'

/-! ## What a call changes -/

/-- A call of a run, with the databases before and behind it. -/
structure CallStep where
  before : HandleDb
  op : KeyOp
  behind : HandleDb

/-- The calls of a run. -/
def callSteps (db : HandleDb) : List KeyOp → List CallStep
  | [] => []
  | op :: ops =>
    match op.step db with
    | none => []
    | some db' => ⟨db, op, db'⟩ :: callSteps db' ops

namespace CallStep

variable (x : CallStep) (h : ℕ)

def Creates : Prop := h ∉ x.before.handleList ∧ h ∈ x.behind.handleList

/-- The handle carries an interface more. -/
def Installs : Prop := (x.before.protocols h).length < (x.behind.protocols h).length

/-- The handle carries an interface less. -/
def Uninstalls : Prop := (x.behind.protocols h).length < (x.before.protocols h).length

instance : Decidable (x.Creates h) := inferInstanceAs (Decidable (_ ∧ _))

instance : Decidable (x.Installs h) := inferInstanceAs (Decidable (_ < _))

instance : Decidable (x.Uninstalls h) := inferInstanceAs (Decidable (_ < _))

/-- The call replaces an interface of the handle, and succeeds. -/
def Reinstalls : Prop :=
  match x.op with
  | .call _ => False
  | .reinstall h' protocol oldInterface newInterface calls connect => h' = h ∧
    coreReinstallProtocolInterface x.before h' protocol oldInterface newInterface calls connect =
      some (.success, x.behind)

/-- **The call changes the handle.** -/
def Changes : Prop := x.Creates h ∨ x.Installs h ∨ x.Uninstalls h ∨ x.Reinstalls h

/-- The call changes the handle otherwise than by a protocol put on a handle that exists. -/
def Renews : Prop := x.Creates h ∨ x.Uninstalls h ∨ x.Reinstalls h

variable {x h}

theorem changes_iff : x.Changes h ↔ x.Installs h ∨ x.Renews h := by
  unfold Changes Renews
  tauto

end CallStep

/-- **The keys tell the handles that were changed** in the calls since `key` was read. -/
def Tells (db : HandleDb) (key : ℕ) (since : List CallStep) : Prop :=
  ∀ h ∈ db.handleList, ((∃ x ∈ since, x.Changes h) → key < db.key h) ∧
    (h ∈ coreConnectHandlesByKey db key true ↔ ∃ x ∈ since, x.Changes h)

/-! ## Which keys a call sets -/

section Effect

variable {db db₁ db' : HandleDb} {h p : ℕ} {op : KeyOp}

/-- The handles, what they carry and their keys are the same. -/
structure SameKeys (db db' : HandleDb) : Prop where
  handleList : db'.handleList = db.handleList
  protocols : db'.protocols = db.protocols
  databaseKey : db'.databaseKey = db.databaseKey
  key : db'.key = db.key

theorem SameLinks.sameKeys (h : SameLinks db db') : SameKeys db db' :=
  ⟨h.handleList, h.protocols, h.databaseKey, h.key⟩

theorem EntryFound.sameKeys {g : EfiGuid} (h : EntryFound db g db') : SameKeys db db' :=
  ⟨h.handleList, h.protocols, h.databaseKey, h.key⟩

theorem SameKeys.trans (h₁ : SameKeys db db₁) (h₂ : SameKeys db₁ db') : SameKeys db db' :=
  ⟨h₂.handleList.trans h₁.handleList, h₂.protocols.trans h₁.protocols,
    h₂.databaseKey.trans h₁.databaseKey, h₂.key.trans h₁.key⟩

/-- The call advances the keys of those that satisfy `P`, which is one handle at most. -/
def KeyEffect (db db' : HandleDb) (P : ℕ → Prop) : Prop :=
  (db'.databaseKey = db.databaseKey ∧ db'.key = db.key ∧ ∀ h, ¬ P h) ∨
    ∃ h, db'.databaseKey = add64 db.databaseKey 1 ∧
      db'.key = update db.key h (add64 db.databaseKey 1) ∧ ∀ h', P h' ↔ h' = h

/-- The lists of handles and of their interfaces tell which handles lose an interface or are
new. -/
def ListsRenew (db db' : HandleDb) (h : ℕ) : Prop :=
  (h ∉ db.handleList ∧ h ∈ db'.handleList) ∨ (db'.protocols h).length < (db.protocols h).length

theorem SameKeys.listsRenew_iff (hk : SameKeys db db₁) :
    ListsRenew db₁ db' = ListsRenew db db' := by
  unfold ListsRenew
  rw [hk.handleList, hk.protocols]

theorem SameKeys.not_listsRenew (hk : SameKeys db db') : ¬ ListsRenew db db' h := by
  unfold ListsRenew
  rw [hk.handleList, hk.protocols]
  rintro (⟨hnew, hmem⟩ | hlt)
  · exact hnew hmem
  · exact lt_irrefl _ hlt

theorem SameKeys.keyEffect (hk : SameKeys db db') : KeyEffect db db' (ListsRenew db db') :=
  .inl ⟨hk.databaseKey, hk.key, fun _ => hk.not_listsRenew⟩

/-- What comes before the lists are edited does not count. -/
theorem KeyEffect.of_sameKeys (hk : SameKeys db db₁) (he : KeyEffect db₁ db' (ListsRenew db₁ db')) :
    KeyEffect db db' (ListsRenew db db') := by
  rw [hk.listsRenew_iff] at he
  unfold KeyEffect at he
  rwa [hk.databaseKey, hk.key] at he

/-- **An install sets the key of a handle that it creates**, and no key otherwise. -/
theorem keyEffect_installed {g : EfiGuid} {i : ℕ} {res : InstallResult}
    (hin : Installed db h g i res) : KeyEffect db res.db (ListsRenew db res.db) := by
  obtain ⟨p, -, ⟨-, -, hnew, hr⟩ | ⟨-, -, -, -, hr⟩⟩ := hin <;> rw [hr]
  · generalize res.handle = h' at hnew
    refine .inr ⟨h', rfl, rfl, fun x => ⟨?_, ?_⟩⟩
    · rintro (⟨hx, hmem⟩ | hlt)
      · rcases mem_append.mp hmem with hmem | hmem
        · exact absurd hmem hx
        · exact mem_singleton.mp hmem
      · by_contra hx
        simp [HandleDb.addInterface, HandleDb.addHandle, HandleDb.advanceKey, hx] at hlt
    · rintro rfl
      exact .inl ⟨hnew, mem_append_right _ (mem_singleton_self x)⟩
  · refine .inl ⟨rfl, rfl, fun x => ?_⟩
    rintro (⟨hx, hmem⟩ | hlt)
    · exact hx hmem
    · by_cases hx : x = h
      · subst hx
        simp only [HandleDb.addInterface, update_self, length_cons] at hlt
        omega
      · simp [HandleDb.addInterface, hx] at hlt

/-- **An uninstall sets the key of the handle.** -/
theorem keyEffect_removeInterface {r : ProtocolInterface} (hp : p ∈ db.protocols h) :
    KeyEffect db ((db.removeInterface p h r).freeHandle h)
      (ListsRenew db ((db.removeInterface p h r).freeHandle h)) := by
  have hf : ∀ db' : HandleDb, (db'.freeHandle h).databaseKey = db'.databaseKey ∧
      (db'.freeHandle h).key = db'.key ∧ (db'.freeHandle h).protocols = db'.protocols ∧
      (db'.freeHandle h).handleList ⊆ db'.handleList := by
    intro db'
    unfold HandleDb.freeHandle
    split
    · exact ⟨rfl, rfl, rfl, erase_subset⟩
    · exact ⟨rfl, rfl, rfl, Subset.refl _⟩
  obtain ⟨hd, hk, hpr, hl⟩ := hf (db.removeInterface p h r)
  refine .inr ⟨h, hd, hk, fun x => ⟨?_, ?_⟩⟩
  · rintro (⟨hx, hmem⟩ | hlt)
    · exact absurd (hl hmem) hx
    · by_contra hx
      rw [hpr] at hlt
      simp [HandleDb.removeInterface, HandleDb.advanceKey, hx] at hlt
  · rintro rfl
    refine .inr ?_
    rw [hpr]
    have hpos := length_pos_of_mem hp
    simp only [HandleDb.removeInterface, update_self, length_erase_of_mem hp]
    omega

theorem keyEffect_install {g : EfiGuid} {i : ℕ} {alloc : InstallAlloc} {res : InstallResult}
    (hr : installNative db h g i alloc = some res) :
    KeyEffect db res.db (ListsRenew db res.db) := by
  have hlocked : ∀ {db₁ status}, SameKeys db db₁ →
      installLocked db₁ h g i status alloc = some res →
        KeyEffect db res.db (ListsRenew db res.db) := by
    intro db₁ status hk hl
    rcases installLocked_cases hl with ⟨-, ⟨-, hre⟩ | ⟨-, hf⟩⟩ | ⟨-, db₂, hf, hin⟩
    · rw [hre]
      exact hk.keyEffect
    · exact (hk.trans hf.sameKeys).keyEffect
    · exact .of_sameKeys (hk.trans hf.sameKeys) (keyEffect_installed hin)
  unfold installNative at hr
  split at hr
  · exact hlocked (SameLinks.refl db).sameKeys hr
  · obtain ⟨o, ho, hre⟩ := bind_eq_some_iff.mp hr
    have hk := (openEdit_coreOpenProtocol ho).links.sameKeys
    split at hre
    · exact hlocked hk hre
    · cases hre
      exact hk.keyEffect

theorem keyEffect_call {op : DbOp} (hs : op.step db = some db') :
    KeyEffect db db' (ListsRenew db db') := by
  have hsame : KeyEffect db db (ListsRenew db db) := (SameLinks.refl db).sameKeys.keyEffect
  cases op with
  | install userHandle protocol native interface alloc =>
    obtain ⟨res, hr, rfl⟩ := map_eq_some_iff.mp hs
    unfold coreInstallProtocolInterface at hr
    split at hr
    · split at hr
      · exact keyEffect_install hr
      · cases hr
        exact hsame
    · cases hr
      exact hsame
  | uninstall h protocol interface calls =>
    obtain ⟨⟨status, db₁⟩, hr, rfl⟩ := map_eq_some_iff.mp hs
    cases protocol with
    | none =>
      cases hr
      exact hsame
    | some g =>
      rcases coreUninstallProtocolInterface_cases hr with
        ⟨-, hsa | ⟨p, hd⟩⟩ | ⟨-, -, p, r, db₂, r₁, -, hd, hf, -, hre⟩
      · rw [hsa]
        exact hsame
      · exact (openEdit_coreDisconnectControllers hd).links.sameKeys.keyEffect
      · rw [hre]
        exact .of_sameKeys (openEdit_coreDisconnectControllers hd).links.sameKeys
          (keyEffect_removeInterface (coreFindProtocolInterface_eq_some hf).1)
  | openProtocol a alloc stops =>
    obtain ⟨res, hr, rfl⟩ := map_eq_some_iff.mp hs
    exact (openEdit_coreOpenProtocol hr).links.sameKeys.keyEffect
  | closeProtocol a =>
    obtain rfl := Option.some.inj hs
    exact (openEdit_coreCloseProtocol db a).links.sameKeys.keyEffect
  | setDxeCoreImageHandle h =>
    obtain rfl := Option.some.inj hs
    exact SameKeys.keyEffect ⟨rfl, rfl, rfl, rfl⟩

/-- **What a reinstall does**: it is refused, with edits of open entries at most, or it sets the key
of the handle and leaves the lists of the handles. -/
theorem coreReinstallProtocolInterface_cases {protocol : Option EfiGuid} {old new : ℕ}
    {calls : UninstallCalls} {connect : Calls} {status : EfiStatus}
    (hr : coreReinstallProtocolInterface db h protocol old new calls connect = some (status, db')) :
    (status.isError = true ∧ SameKeys db db') ∨
      (status = .success ∧ SameKeys (db.advanceKey h) db') := by
  unfold coreReinstallProtocolInterface at hr
  split at hr
  · cases hr
    exact .inl ⟨rfl, (SameLinks.refl db).sameKeys⟩
  split at hr
  · cases hr
    exact .inl ⟨rfl, (SameLinks.refl db).sameKeys⟩
  split at hr
  · cases hr
    exact .inl ⟨rfl, (SameLinks.refl db).sameKeys⟩
  obtain ⟨⟨db₁, ok⟩, hd, hr⟩ := bind_eq_some_iff.mp hr
  have hk := (openEdit_coreDisconnectControllers hd).links.sameKeys
  dsimp only at hr
  split at hr
  · cases hr
    exact .inl ⟨rfl, hk⟩
  split at hr
  · cases hr
    exact .inl ⟨rfl, hk⟩
  · obtain ⟨db₂, hc, heq⟩ := map_eq_some_iff.mp hr
    cases heq
    have hk₂ := (openEdit_runCalls hc).links.sameKeys
    refine .inr ⟨rfl, ?_⟩
    -- the callbacks before and behind leave the keys alone
    have hadv : SameKeys (db.advanceKey h) (db₁.advanceKey h) := by
      refine ⟨hk.handleList, hk.protocols, ?_, ?_⟩ <;> simp only [HandleDb.advanceKey]
      · rw [hk.databaseKey]
      · rw [hk.databaseKey, hk.key]
    exact hadv.trans ⟨hk₂.handleList, hk₂.protocols, hk₂.databaseKey, hk₂.key⟩

/-- **Which keys a call sets**: that of a handle that it creates, that it takes an interface off or
that it reinstalls an interface on. -/
theorem keyEffect_step (hs : op.step db = some db') :
    KeyEffect db db' (CallStep.Renews ⟨db, op, db'⟩) := by
  have hl : ∀ x, CallStep.Renews ⟨db, op, db'⟩ x ↔
      ListsRenew db db' x ∨ CallStep.Reinstalls ⟨db, op, db'⟩ x := fun x => or_assoc.symm
  cases op with
  | call op =>
    have hP : CallStep.Renews ⟨db, .call op, db'⟩ = ListsRenew db db' := by
      funext x
      rw [hl x]
      exact propext (or_iff_left id)
    rw [hP]
    exact keyEffect_call hs
  | reinstall h protocol old new calls connect =>
    obtain ⟨⟨status, db₁⟩, hr, rfl⟩ := map_eq_some_iff.mp hs
    rcases coreReinstallProtocolInterface_cases hr with ⟨he, hk⟩ | ⟨rfl, hk⟩
    · refine .inl ⟨hk.databaseKey, hk.key, fun x hx => ?_⟩
      rcases (hl x).mp hx with hx | ⟨-, hx⟩
      · exact hk.not_listsRenew hx
      · rw [hr] at hx
        cases hx
        cases he
    · refine .inr ⟨h, hk.databaseKey, hk.key, fun x => (hl x).trans ⟨?_, ?_⟩⟩
      · rintro (hx | ⟨hx, -⟩)
        · have hns : ¬ ListsRenew (db.advanceKey h) db₁ x := hk.not_listsRenew
          exact absurd hx hns
        · exact hx.symm
      · rintro rfl
        exact .inr ⟨rfl, hr⟩

end Effect

/-! ## Which keys a run sets -/

section Runs

variable {db db' s t : HandleDb} {key : ℕ} {op : KeyOp} {ops before since : List KeyOp}

/-- No key is above the counter, which is not below the key that was read. -/
structure KeysBelow (key : ℕ) (db : HandleDb) : Prop where
  le : key ≤ db.databaseKey
  key_le : ∀ h, db.key h ≤ db.databaseKey

/-- **Which keys are above the key that was read**, behind a call. -/
theorem KeysBelow.step (h : KeysBelow key db) (hs : op.step db = some db')
    (hn : db.databaseKey + 1 < 2 ^ 64) :
    KeysBelow key db' ∧ db'.databaseKey ≤ db.databaseKey + 1 ∧
      ∀ x, key < db'.key x ↔ key < db.key x ∨ CallStep.Renews ⟨db, op, db'⟩ x := by
  rcases keyEffect_step hs with ⟨hd, hk, hP⟩ | ⟨h', hd, hk, hP⟩
  · refine ⟨⟨?_, fun x => ?_⟩, ?_, fun x => ?_⟩
    · rw [hd]
      exact h.le
    · rw [hd, hk]
      exact h.key_le x
    · rw [hd]
      exact Nat.le_succ _
    · rw [hk, or_iff_left (hP x)]
  · rw [add64_of_lt hn] at hd hk
    have hle := h.le
    refine ⟨⟨?_, fun x => ?_⟩, Nat.le_of_eq hd, fun x => ?_⟩
    · rw [hd]
      exact Nat.le_succ_of_le hle
    · have := h.key_le x
      rw [hd, hk, Function.update_apply]
      split <;> omega
    · rw [hk, hP, Function.update_apply]
      split
      · rename_i hx
        rw [iff_true_right (.inr hx)]
        exact Nat.lt_succ_of_le hle
      · rename_i hx
        rw [or_iff_left hx]

/-- **Which keys a run sets.** -/
theorem lt_key_iff_of_run (hr : Run KeyStep s ops t) (h : KeysBelow key s)
    (hn : s.databaseKey + ops.length < 2 ^ 64) :
    KeysBelow key t ∧ t.databaseKey ≤ s.databaseKey + ops.length ∧
      ∀ x, key < t.key x ↔ key < s.key x ∨ ∃ c ∈ callSteps s ops, c.Renews x := by
  induction hr with
  | nil s =>
    refine ⟨h, le_rfl, fun x => ?_⟩
    simp [callSteps]
  | @cons s s' t op ops hs _ ih =>
    rw [length_cons] at hn ⊢
    obtain ⟨h₁, hd, hk⟩ := h.step hs (by omega)
    obtain ⟨h₂, hd₂, hk₂⟩ := ih h₁ (by omega)
    have hc : callSteps s (op :: ops) = ⟨s, op, s'⟩ :: callSteps s' ops := by
      rw [callSteps, hs]
    refine ⟨h₂, by omega, fun x => ?_⟩
    rw [hk₂, hk, hc, or_assoc]
    simp only [mem_cons, exists_eq_or_imp]

/-- **The keys tell the changed handles** exactly when each handle that a protocol was installed on
was also created, or had a protocol taken off or replaced. -/
theorem tells_iff (hb : Run KeyStep initialDb before s) (hr : Run KeyStep s since t)
    (hn : before.length + since.length < 2 ^ 64) :
    Tells t s.databaseKey (callSteps s since) ↔
      ∀ h ∈ t.handleList, (∃ x ∈ callSteps s since, x.Installs h) →
        ∃ x ∈ callSteps s since, x.Renews h := by
  have hi : KeysBelow 0 initialDb := ⟨le_rfl, fun _ => le_rfl⟩
  have hz : initialDb.databaseKey = 0 := rfl
  obtain ⟨hs, hd, -⟩ := lt_key_iff_of_run hb hi (by omega)
  obtain ⟨-, -, ht⟩ := lt_key_iff_of_run hr ⟨le_rfl, hs.key_le⟩ (by omega)
  have hk : ∀ h, s.databaseKey < t.key h ↔ ∃ x ∈ callSteps s since, x.Renews h := fun h =>
    (ht h).trans (or_iff_right (hs.key_le h).not_gt)
  constructor
  · rintro h x hx ⟨c, hc, hi⟩
    exact (hk x).mp ((h x hx).1 ⟨c, hc, CallStep.changes_iff.mpr (.inl hi)⟩)
  · intro h x hx
    have hch : (∃ c ∈ callSteps s since, c.Changes x) ↔ s.databaseKey < t.key x := by
      rw [hk]
      constructor
      · rintro ⟨c, hc, hm⟩
        rcases CallStep.changes_iff.mp hm with hi | hre
        · exact h x hx ⟨c, hc, hi⟩
        · exact ⟨c, hc, hre⟩
      · rintro ⟨c, hc, hre⟩
        exact ⟨c, hc, CallStep.changes_iff.mpr (.inr hre)⟩
    refine ⟨hch.mp, ?_⟩
    rw [hch, coreConnectHandlesByKey, if_pos rfl, mem_filter, decide_eq_true_eq,
      and_iff_right hx]

/-- A native interface is installed at `p` with a protocol of its own, on a new handle at `h` if
`userHandle` is zero. -/
private def keyInstall (userHandle p h : ℕ) : KeyOp :=
  .call (.install (some userHandle) (some [UInt8.ofNat p]) true 0x1000
    ⟨true, true, some p, some h⟩)

/-- A handle with two protocols and one with one. -/
private def keyBefore : List KeyOp := [keyInstall 0 1 0x10, keyInstall 0x10 2 0, keyInstall 0 3 0x20]

/-- A handle is created and gets a second protocol, and a protocol is taken off the first handle. -/
private def keySince : List KeyOp :=
  [keyInstall 0 4 0x30, keyInstall 0x30 5 0, .call (.uninstall 0x10 (some [1]) 0x1000 ⟨.nil, .nil⟩)]

/-- The handles that were changed are connected, the one that was not is left alone. -/
theorem tells_iff_changed : ∃ s t, Run KeyStep initialDb keyBefore s ∧ Run KeyStep s keySince t ∧
    t.handleList = [0x10, 0x20, 0x30] ∧ s.databaseKey = 2 ∧
    coreConnectHandlesByKey t s.databaseKey true = [0x10, 0x30] ∧
    (∃ x ∈ callSteps s keySince, x.Installs 0x30) ∧
    Tells t s.databaseKey (callSteps s keySince) := by
  have he : (keyBefore.foldlM KeyOp.step initialDb).bind (fun s =>
      (keySince.foldlM KeyOp.step s).map fun t =>
        (t.handleList, s.databaseKey, coreConnectHandlesByKey t s.databaseKey true,
          [decide (∃ x ∈ callSteps s keySince, x.Installs 0x30),
            decide (∃ x ∈ callSteps s keySince, x.Creates 0x30),
            decide (∃ x ∈ callSteps s keySince, x.Uninstalls 0x10),
            decide (∃ x ∈ callSteps s keySince, x.Installs 0x20)])) =
      some ([0x10, 0x20, 0x30], 2, [0x10, 0x30], [true, true, true, false]) := by
    decide +kernel
  obtain ⟨s, hs, he⟩ := bind_eq_some_iff.mp he
  obtain ⟨t, ht, he⟩ := map_eq_some_iff.mp he
  simp only [Prod.mk.injEq, cons.injEq, decide_eq_true_eq, decide_eq_false_iff_not] at he
  obtain ⟨hl, hk, hc, hi, hcr, hun, hno, -⟩ := he
  refine ⟨s, t, .of_foldlM hs, .of_foldlM ht, hl, hk, hc, hi,
    (tells_iff (.of_foldlM hs) (.of_foldlM ht) (by decide)).mpr ?_⟩
  rw [hl]
  intro h hh hinst
  simp only [mem_cons, not_mem_nil, or_false] at hh
  rcases hh with rfl | rfl | rfl
  · obtain ⟨x, hx, hu⟩ := hun
    exact ⟨x, hx, .inr (.inl hu)⟩
  · exact absurd hinst hno
  · obtain ⟨x, hx, hu⟩ := hcr
    exact ⟨x, hx, .inl hu⟩

/-- A second protocol is new on a handle, but `Key` is not above the value that was read. -/
theorem not_tells_installed : ∃ s t, Run KeyStep initialDb [keyInstall 0 1 0x10] s ∧
    Run KeyStep s [keyInstall 0x10 2 0] t ∧ 0x10 ∈ t.handleList ∧
    (∃ x ∈ callSteps s [keyInstall 0x10 2 0], x.Installs 0x10) ∧
    t.key 0x10 = s.databaseKey ∧ coreConnectHandlesByKey t s.databaseKey true = [] ∧
    ¬ Tells t s.databaseKey (callSteps s [keyInstall 0x10 2 0]) := by
  have he : ([keyInstall 0 1 0x10].foldlM KeyOp.step initialDb).bind (fun s =>
      ([keyInstall 0x10 2 0].foldlM KeyOp.step s).map fun t =>
        (decide (0x10 ∈ t.handleList),
          decide (∃ x ∈ callSteps s [keyInstall 0x10 2 0], x.Installs 0x10),
          decide (t.key 0x10 = s.databaseKey), coreConnectHandlesByKey t s.databaseKey true)) =
      some (true, true, true, []) := by
    decide +kernel
  obtain ⟨s, hs, he⟩ := bind_eq_some_iff.mp he
  obtain ⟨t, ht, he⟩ := map_eq_some_iff.mp he
  simp only [Prod.mk.injEq, decide_eq_true_eq] at he
  obtain ⟨hm, hi, hk, hc⟩ := he
  refine ⟨s, t, .of_foldlM hs, .of_foldlM ht, hm, hi, hk, hc, fun htell => ?_⟩
  obtain ⟨x, hx, hin⟩ := hi
  have hlt := (htell 0x10 hm).1 ⟨x, hx, CallStep.changes_iff.mpr (.inl hin)⟩
  omega

end Runs

end Edk2.Hand

import Edk2.Hand.Multiple

/-!
# Uninstalling several interfaces

`CoreUninstallMultipleProtocolInterfaces` uninstalls pairs of a protocol and an interface; if one of
them fails, those before it are installed again, on the handle they were taken from. But a handle is
freed with its last interface: then there is nothing to install them on.

## Main results

* `removed_of_run`: the pairs before the one that fails are removed
* `reinstallAll_spec`: what the loop that installs them again brings back
* `uninstallMultiple_restores_iff`: when a failed call leaves the triples as they were
-/

namespace Edk2.Hand

open List Option
open Function (update update_self update_of_ne)

/-- A pair to be uninstalled, with what the callbacks do, and the results of allocations if it is
installed again. -/
structure UninstallArg where
  protocol : EfiGuid
  interface : ℕ
  calls : UninstallCalls
  alloc : InstallAlloc

/-- The loop that uninstalls the pairs: the status, the database and `Index`. -/
def uninstallLoop (db : HandleDb) (h : ℕ) :
    List UninstallArg → ℕ → Option (EfiStatus × HandleDb × ℕ)
  | [], index => some (.success, db, index)
  | arg :: args, index =>
    (coreUninstallProtocolInterface db h (some arg.protocol) arg.interface arg.calls).bind fun r =>
      if r.1.isError then some (r.1, r.2, index + 1) else uninstallLoop r.2 h args (index + 1)

/-- The loop that installs pairs that were uninstalled. -/
def reinstallAll (db : HandleDb) (h : ℕ) : List UninstallArg → Option HandleDb
  | [] => some db
  | arg :: args =>
    (installNative db h arg.protocol arg.interface arg.alloc).bind fun r =>
      reinstallAll r.db r.handle args

def coreUninstallMultipleProtocolInterfaces (db : HandleDb) (h : ℕ) (args : List UninstallArg) :
    Option (EfiStatus × HandleDb) :=
  (uninstallLoop db h args 0).bind fun r =>
    if r.1.isError then
      (reinstallAll r.2.1 h (args.take (r.2.2 - 1))).map fun db => (.invalidParameter, db)
    else some (r.1, r.2.1)

/-! ## Uninstalling several interfaces -/

section Uninstall

variable {db db₁ db' : HandleDb} {h p i : ℕ} {g : EfiGuid} {arg : UninstallArg}
  {args removed : List UninstallArg}

/-- The step that uninstalls a pair. -/
def UninstallStep (h : ℕ) (db : HandleDb) (arg : UninstallArg) (db' : HandleDb) : Prop :=
  coreUninstallProtocolInterface db h (some arg.protocol) arg.interface arg.calls
    = some (.success, db')

/-- The allocations of the loop that installs pairs again succeed. -/
def Reallocates (h : ℕ) : HandleDb → List UninstallArg → Prop
  | _, [] => True
  | db, arg :: args =>
    (db.newProt arg.alloc).isSome ∧
      ∀ r, installNative db h arg.protocol arg.interface arg.alloc = some r → Reallocates h r.db args

/-- **A call that succeeds removes its triple.** -/
theorem UninstallStep.view_eq (hdb : Linked db) (hs : UninstallStep h db arg db') :
    Linked db' ∧ db'.entries = db.entries ∧
      ∃ p, db.view p = some (h, arg.protocol, arg.interface) ∧
        db'.view = update db.view p none := by
  rcases coreUninstallProtocolInterface_cases hs with
    ⟨he, -⟩ | ⟨-, -, p, r, db₁, r₁, hf, hd, hf₁, -, rfl⟩
  · cases he
  have hl := (openEdit_coreDisconnectControllers hd).links
  have hdb₁ := hdb.of_sameLinks hl
  obtain ⟨hmem, hp, -⟩ := coreFindProtocolInterface_eq_some hf₁
  refine ⟨linked_removeInterface hdb₁ hp (hdb₁.byHandle.key_eq hp hmem), ?_, p,
    hdb.view_of_find hf, ?_⟩
  · unfold HandleDb.freeHandle
    split <;> exact hl.entries
  · rw [view_removeInterface, hl.view_eq]

theorem UniqueGuid.view {q j : ℕ} (hu : UniqueGuid db) (hp : db.view p = some (h, g, i))
    (hq : db.view q = some (h, g, j)) : p = q := by
  obtain ⟨r, hr, hl⟩ := view_eq_some.mp hp
  obtain ⟨s, hs, hl'⟩ := view_eq_some.mp hq
  refine hu p q r s hr hs ?_ ?_
  · exact (congrArg Prod.fst hl).trans (congrArg Prod.fst hl').symm
  · exact (congrArg (fun l => l.2.1) hl).trans (congrArg (fun l => l.2.1) hl').symm

theorem uniqueGuid_of_view
    (h : ∀ p q h g i j, db.view p = some (h, g, i) → db.view q = some (h, g, j) → p = q) :
    UniqueGuid db := by
  intro p q r s hp hq hh hpr
  refine h p q r.handle r.protocol r.interface s.interface (view_eq_some.mpr ⟨r, hp, rfl⟩)
    (view_eq_some.mpr ⟨s, hq, ?_⟩)
  rw [ProtocolInterface.links, hh, hpr]

/-- **What is left when pairs were removed**: what was carried, without these pairs, and no
interface of their protocols on the handle. -/
structure Removed (db : HandleDb) (h : ℕ) (removed : List UninstallArg) (db' : HandleDb) : Prop where
  linked : Linked db'
  unique : UniqueGuid db'
  entries : ∀ arg ∈ removed, arg.protocol ∈ db'.entries
  carried : ∀ arg ∈ removed, Carries db h arg.protocol arg.interface
  gone : ∀ arg ∈ removed, ∀ i, ¬ Carries db' h arg.protocol i
  distinct : removed.Pairwise fun a b => a.protocol ≠ b.protocol
  others : ∀ h' g i, Carries db' h' g i ↔
    Carries db h' g i ∧ ∀ arg ∈ removed, (h', g, i) ≠ (h, arg.protocol, arg.interface)

theorem Removed.of_openEdit (hr : Removed db h removed db₁) (he : OpenEdit db₁ db') :
    Removed db h removed db' := by
  have hv := he.links.view_eq
  have hc : ∀ h g i, Carries db' h g i ↔ Carries db₁ h g i := by
    intro h g i
    unfold Carries
    rw [hv]
  refine ⟨hr.linked.of_sameLinks he.links, hr.unique.of_sameLinks he.links, ?_,
    hr.carried, fun arg ha i hca => ?_, hr.distinct, fun h' g i => ?_⟩
  · rw [he.links.entries]
    exact hr.entries
  · exact hr.gone arg ha i ((hc _ _ _).mp hca)
  · rw [hc]
    exact hr.others h' g i

theorem Removed.step (hr : Removed db h removed db₁) (hst : UninstallStep h db₁ arg db') :
    Removed db h (removed ++ [arg]) db' := by
  obtain ⟨hli, he, p, hv, hv'⟩ := hst.view_eq hr.linked
  have hca : ∀ h' g i, Carries db' h' g i ↔
      Carries db₁ h' g i ∧ (h', g, i) ≠ (h, arg.protocol, arg.interface) := by
    intro h' g i
    unfold Carries
    rw [hv']
    constructor
    · rintro ⟨q, hq⟩
      by_cases hqp : q = p
      · subst hqp
        rw [update_self] at hq
        cases hq
      · rw [update_of_ne hqp] at hq
        refine ⟨⟨q, hq⟩, fun heq => hqp ?_⟩
        rw [heq] at hq
        exact hr.unique.view hq hv
    · rintro ⟨⟨q, hq⟩, hne⟩
      refine ⟨q, ?_⟩
      rw [update_of_ne, hq]
      rintro rfl
      rw [hv] at hq
      exact hne (some.inj hq).symm
  have hmem : ∀ {a}, a ∈ removed ++ [arg] → a ∈ removed ∨ a = arg := fun ha =>
    (mem_append.mp ha).imp_right mem_singleton.mp
  refine ⟨hli, ?_, ?_, ?_, ?_, ?_, ?_⟩
  · refine uniqueGuid_of_view fun q q' h' g i j hq hq' => ?_
    rw [hv'] at hq hq'
    have hne : ∀ {q i}, update db₁.view p none q = some (h', g, i) → q ≠ p := by
      rintro q i hs rfl
      rw [update_self] at hs
      cases hs
    rw [update_of_ne (hne hq)] at hq
    rw [update_of_ne (hne hq')] at hq'
    exact hr.unique.view hq hq'
  · intro a ha
    rw [he]
    rcases hmem ha with ha | rfl
    · exact hr.entries a ha
    · obtain ⟨r, hp, hl⟩ := view_eq_some.mp hv
      have := hr.linked.mem_entries p r hp
      rwa [show r.protocol = a.protocol from congrArg (fun l => l.2.1) hl] at this
  · intro a ha
    rcases hmem ha with ha | rfl
    · exact hr.carried a ha
    · exact ((hr.others _ _ _).mp ⟨p, hv⟩).1
  · intro a ha i hc
    rw [hca] at hc
    rcases hmem ha with ha | rfl
    · exact hr.gone a ha i hc.1
    · obtain ⟨⟨q, hq⟩, hne⟩ := hc
      obtain rfl := hr.unique.view hq hv
      rw [hv] at hq
      exact hne (some.inj hq).symm
  · refine pairwise_append.mpr ⟨hr.distinct, pairwise_singleton _ _, ?_⟩
    intro a ha b hb heq
    obtain rfl := mem_singleton.mp hb
    exact hr.gone a ha b.interface (heq ▸ ⟨p, hv⟩)
  · intro h' g i
    rw [hca, hr.others, and_assoc]
    refine and_congr_right fun _ => ?_
    constructor
    · rintro ⟨hold, hnew⟩ a ha
      rcases hmem ha with ha | rfl
      · exact hold a ha
      · exact hnew
    · intro hal
      exact ⟨fun a ha => hal a (mem_append_left _ ha),
        hal arg (mem_append_right _ (mem_singleton_self arg))⟩

theorem Removed.valid_iff (hr : Removed db h removed db') :
    db'.Valid h ↔ ∃ g i, Carries db h g i ∧
      ∀ arg ∈ removed, (g, i) ≠ (arg.protocol, arg.interface) := by
  constructor
  · intro hva
    obtain ⟨p, hp⟩ := exists_mem_of_ne_nil _ ((hr.linked.mem_handleList h).mp hva.2)
    obtain ⟨r, hpr, rfl⟩ := (hr.linked.byHandle.mem_iff h p).mp hp
    obtain ⟨hc, ho⟩ := (hr.others r.handle r.protocol r.interface).mp
      ⟨p, view_eq_some.mpr ⟨r, hpr, rfl⟩⟩
    refine ⟨r.protocol, r.interface, hc, fun arg ha heq => ho arg ha ?_⟩
    rw [heq]
  · rintro ⟨g, i, hc, ho⟩
    obtain ⟨p, hv⟩ := (hr.others h g i).mpr
      ⟨hc, fun arg ha heq => ho arg ha (congrArg Prod.snd heq)⟩
    exact hr.linked.valid_of_view hv

theorem removed_of_run (hdb : Linked db) (hu : UniqueGuid db)
    (hr : Run (UninstallStep h) db removed db') : Removed db h removed db' := by
  refine Run.history ?_ ?_ hr
  · exact ⟨hdb, hu, fun _ ha => absurd ha not_mem_nil, fun _ ha => absurd ha not_mem_nil,
      fun _ ha => absurd ha not_mem_nil, .nil,
      fun _ _ _ => ⟨fun hc => ⟨hc, fun _ ha => absurd ha not_mem_nil⟩, fun hc => hc.1⟩⟩
  · exact fun _ _ _ _ hre hs => hre.step hs

/-- The loop removes pairs up to one that is refused. -/
theorem uninstallLoop_spec {index index' : ℕ} {status : EfiStatus}
    (hl : uninstallLoop db h args index = some (status, db', index'))
    (he : status.isError = true) :
    ∃ removed bad rest db₁, args = removed ++ bad :: rest ∧ index' = index + removed.length + 1 ∧
      Run (UninstallStep h) db removed db₁ ∧
      coreUninstallProtocolInterface db₁ h (some bad.protocol) bad.interface bad.calls
        = some (status, db') := by
  induction args generalizing db index with
  | nil =>
    cases hl
    cases he
  | cons arg args ih =>
    obtain ⟨⟨status₁, db₁⟩, hru, hr⟩ := bind_eq_some_iff.mp hl
    split at hr
    · cases hr
      exact ⟨[], arg, args, db, rfl, rfl, .nil db, hru⟩
    · rename_i hok
      have hs : status₁ = .success := EfiStatus.isError_eq_false.mp (by simpa using hok)
      subst hs
      obtain ⟨removed, bad, rest, db₂, rfl, rfl, hst, hb⟩ := ih hr
      refine ⟨arg :: removed, bad, rest, db₂, rfl, ?_, .cons hru hst, hb⟩
      rw [length_cons]
      omega

/-- **A pair is installed again** if its handle is still there and its interface can be allocated.
-/
theorem installNative_again {alloc : InstallAlloc} {res : InstallResult} (hdb : Linked db)
    (hu : UniqueGuid db) (hne : h ≠ 0) (hg : g ∈ db.entries) (hnew : ∀ i, ¬ Carries db h g i)
    (hr : installNative db h g i alloc = some res) :
    (Linked res.db ∧ UniqueGuid res.db ∧ res.handle = h ∧ res.db.handleList = db.handleList ∧
      res.db.entries = db.entries) ∧
    ((db.Valid h ∧ (db.newProt alloc).isSome ∧
        ∃ p, db.view p = none ∧ res.db.view = update db.view p (some (h, g, i))) ∨
      (¬ (db.Valid h ∧ (db.newProt alloc).isSome) ∧ res.db.view = db.view)) := by
  have hge : coreGetProtocolInterface db h g = none := by
    by_contra hs
    obtain ⟨⟨p, r⟩, hge⟩ := ne_none_iff_exists'.mp hs
    obtain ⟨r', hpro, hh, hpr⟩ := hdb.at hge
    refine hnew r'.interface ⟨p, view_eq_some.mpr ⟨r', hpro, ?_⟩⟩
    rw [ProtocolInterface.links, hh, hpr]
  unfold installNative at hr
  rw [if_neg hne] at hr
  obtain ⟨r, ho, hre⟩ := bind_eq_some_iff.mp hr
  obtain ⟨he, hsa⟩ : r.status.isError = true ∧ r.db = db := by
    unfold coreHandleProtocol coreOpenProtocol openWith at ho
    dsimp only at ho
    rw [if_neg (by simp)] at ho
    split at ho
    · cases ho
      exact ⟨rfl, rfl⟩
    rw [hge] at ho
    cases ho
    exact ⟨rfl, rfl⟩
  rw [if_pos he, hsa] at hre
  unfold installLocked coreFindProtocolEntry at hre
  rw [if_pos hg] at hre
  dsimp only at hre
  split at hre
  · rename_i hnone
    cases hre
    exact ⟨⟨hdb, hu, rfl, rfl, rfl⟩, .inr ⟨fun hb => by simp [hnone] at hb, rfl⟩⟩
  · rename_i p hp
    have hfree : db.prot p = none := by
      obtain ⟨-, hnone⟩ := Option.filter_eq_some_iff.mp hp
      simpa using hnone
    rw [if_neg hne] at hre
    split at hre
    · rename_i hin
      cases hre
      exact ⟨⟨hdb, hu, rfl, rfl, rfl⟩, .inr ⟨fun hb => hin hb.1, rfl⟩⟩
    · rename_i hv
      have hv := not_not.mp hv
      split at hre
      · cases hre
      · cases hre
        have hvi := view_addInterface db p h g i
        refine ⟨⟨linked_addInterface hdb hv.2 hfree hg, ?_, rfl, rfl, rfl⟩,
          .inl ⟨hv, by rw [hp]; rfl, p, view_eq_none.mpr hfree, hvi⟩⟩
        refine uniqueGuid_of_view fun q q' h' g' j j' hq hq' => ?_
        rw [hvi] at hq hq'
        by_cases hqp : q = p <;> by_cases hqp' : q' = p
        · exact hqp.trans hqp'.symm
        · subst hqp
          rw [update_self] at hq
          rw [update_of_ne hqp'] at hq'
          cases hq
          exact absurd ⟨q', hq'⟩ (hnew j')
        · subst hqp'
          rw [update_self] at hq'
          rw [update_of_ne hqp] at hq
          cases hq'
          exact absurd ⟨q, hq⟩ (hnew j)
        · rw [update_of_ne hqp] at hq
          rw [update_of_ne hqp'] at hq'
          exact hu.view hq hq'

/-- **The loop that installs pairs again**: nothing is lost, nothing else is added, and all of the
pairs are there behind it if and only if the handle is there and all allocations succeed. -/
theorem reinstallAll_spec (hdb : Linked db) (hu : UniqueGuid db) (hne : h ≠ 0)
    (he : ∀ arg ∈ args, arg.protocol ∈ db.entries)
    (hnew : ∀ arg ∈ args, ∀ i, ¬ Carries db h arg.protocol i)
    (hd : args.Pairwise fun a b => a.protocol ≠ b.protocol)
    (hru : reinstallAll db h args = some db') :
    Linked db' ∧ (∀ h' g i, Carries db h' g i → Carries db' h' g i) ∧
    (∀ h' g i, Carries db' h' g i → Carries db h' g i ∨
      ∃ arg ∈ args, (h', g, i) = (h, arg.protocol, arg.interface)) ∧
    ((∀ arg ∈ args, Carries db' h arg.protocol arg.interface) ↔
      args = [] ∨ db.Valid h ∧ Reallocates h db args) := by
  induction args generalizing db with
  | nil =>
    cases hru
    exact ⟨hdb, fun _ _ _ => id, fun _ _ _ => .inl, fun _ => .inl rfl,
      fun _ _ ha => absurd ha not_mem_nil⟩
  | cons arg args ih =>
    obtain ⟨res, hinstall, hres⟩ := bind_eq_some_iff.mp hru
    obtain ⟨hg, he⟩ := forall_mem_cons.mp he
    obtain ⟨hna, hnew⟩ := forall_mem_cons.mp hnew
    obtain ⟨hdi, hd⟩ := pairwise_cons.mp hd
    obtain ⟨⟨hli, hu', hha, hl, he'⟩, hca⟩ :=
      installNative_again hdb hu hne hg hna hinstall
    have hva : res.db.Valid h ↔ db.Valid h := by
      unfold HandleDb.Valid
      rw [hl]
    have hcarries : ∀ h' g i, Carries res.db h' g i ↔ Carries db h' g i ∨
        (db.Valid h ∧ (db.newProt arg.alloc).isSome) ∧
          (h', g, i) = (h, arg.protocol, arg.interface) := by
      intro h' g i
      unfold Carries
      rcases hca with ⟨hh, hall, p, hfree, hv⟩ | ⟨hn, hv⟩
      · rw [hv]
        constructor
        · rintro ⟨q, hq⟩
          by_cases hqp : q = p
          · subst hqp
            rw [update_self] at hq
            exact .inr ⟨⟨hh, hall⟩, (some.inj hq).symm⟩
          · rw [update_of_ne hqp] at hq
            exact .inl ⟨q, hq⟩
        · rintro (⟨q, hq⟩ | ⟨-, heq⟩)
          · refine ⟨q, ?_⟩
            rw [update_of_ne, hq]
            rintro rfl
            rw [hfree] at hq
            cases hq
          · exact ⟨p, by rw [update_self, heq]⟩
      · rw [hv]
        exact ⟨.inl, fun hc => hc.resolve_right fun hin => hn hin.1⟩
    rw [hha] at hres
    obtain ⟨hl', hk, ho, hal⟩ := ih hli hu' (he' ▸ he)
      (fun a ha i hcar => by
        rcases (hcarries _ _ _).mp hcar with hold | ⟨-, heq⟩
        · exact hnew a ha i hold
        · exact hdi a ha (congrArg (fun l => l.2.1) heq).symm) hd hres
    refine ⟨hl', fun h' g i hold => hk _ _ _ ((hcarries h' g i).mpr (.inl hold)),
      fun h' g i hc => ?_, ?_⟩
    · rcases ho h' g i hc with hc | ⟨a, ha, heq⟩
      · exact ((hcarries h' g i).mp hc).imp_right fun hin => ⟨arg, mem_cons_self, hin.2⟩
      · exact .inr ⟨a, mem_cons_of_mem _ ha, heq⟩
    rw [forall_mem_cons, hal]
    constructor
    · rintro ⟨har, hargs⟩
      -- the first pair can only have come back in the first step
      have hins : db.Valid h ∧ (db.newProt arg.alloc).isSome := by
        rcases ho _ _ _ har with hc | ⟨a, ha, heq⟩
        · rcases (hcarries _ _ _).mp hc with hold | ⟨hin, -⟩
          · exact absurd hold (hna _)
          · exact hin
        · exact absurd (congrArg (fun l => l.2.1) heq) (hdi a ha)
      refine .inr ⟨hins.1, hins.2, fun r hr => ?_⟩
      obtain rfl := some.inj (hinstall.symm.trans hr)
      rcases hargs with rfl | hargs
      · trivial
      · exact hargs.2
    · rintro (hnil | ⟨hh, hall, hre⟩)
      · cases hnil
      · exact ⟨hk _ _ _ ((hcarries _ _ _).mpr (.inr ⟨⟨hh, hall⟩, rfl⟩)),
          .inr ⟨hva.mpr hh, hre res hinstall⟩⟩

theorem coreUninstallMultiple_failed {status : EfiStatus} (hdb : Linked db) (hu : UniqueGuid db)
    (hru : coreUninstallMultipleProtocolInterfaces db h args = some (status, db'))
    (he : status.isError = true) :
    ∃ removed bad rest db₁ status₁ db₂, args = removed ++ bad :: rest ∧
      Run (UninstallStep h) db removed db₁ ∧
      coreUninstallProtocolInterface db₁ h (some bad.protocol) bad.interface bad.calls
        = some (status₁, db₂) ∧ status₁.isError = true ∧
      Removed db h removed db₂ ∧ reinstallAll db₂ h removed = some db' := by
  obtain ⟨⟨status₁, db₂, index⟩, hl, hr⟩ := bind_eq_some_iff.mp hru
  split at hr
  · rename_i hf
    obtain ⟨db₃, hre, heq⟩ := Option.map_eq_some_iff.mp hr
    cases heq
    obtain ⟨removed, bad, rest, db₁, rfl, rfl, hs, hb⟩ := uninstallLoop_spec hl hf
    rw [Nat.zero_add, Nat.add_sub_cancel, take_left' rfl] at hre
    refine ⟨removed, bad, rest, db₁, status₁, db₂, rfl, hs, hb, hf,
      (removed_of_run hdb hu hs).of_openEdit ?_, hre⟩
    -- a refused call changes no triple
    rcases coreUninstallProtocolInterface_cases hb with ⟨-, rfl | ⟨p, hd⟩⟩ | ⟨hst, -⟩
    · exact .refl _
    · exact openEdit_coreDisconnectControllers hd
    · rw [hst] at hf
      cases hf
  · cases hr
    exact absurd he ‹_›

/-- The handle of pairs that were removed is not `NULL`. -/
theorem Removed.handle_ne_zero (hr : Removed db h removed db') (hdb : Linked db)
    (hne : removed ≠ []) : h ≠ 0 := by
  obtain ⟨first, hf⟩ := exists_mem_of_ne_nil removed hne
  obtain ⟨p, hv⟩ := hr.carried first hf
  exact (hdb.valid_of_view hv).1

/-- **A failed call to uninstall several interfaces.** Some pairs were removed before one was
refused. The triples are as they were if and only if no pair was removed, or the handle carried an
interface that was not and every pair could be allocated again. -/
theorem uninstallMultiple_restores_iff {status : EfiStatus} (hdb : Linked db) (hunique : UniqueGuid db)
    (hrun : coreUninstallMultipleProtocolInterfaces db h args = some (status, db'))
    (herror : status.isError = true) :
    ∃ removed bad rest db₁ status₁ db₂, args = removed ++ bad :: rest ∧
      Run (UninstallStep h) db removed db₁ ∧
      coreUninstallProtocolInterface db₁ h (some bad.protocol) bad.interface bad.calls
        = some (status₁, db₂) ∧ status₁.isError = true ∧
      ((∀ h' g i, Carries db' h' g i ↔ Carries db h' g i) ↔
        removed = [] ∨
          (∃ g i, Carries db h g i ∧
            ∀ arg ∈ removed, (g, i) ≠ (arg.protocol, arg.interface)) ∧ Reallocates h db₂ removed) := by
  obtain ⟨removed, bad, rest, db₁, status₁, db₂, hargs, hs, hb, hf, hre, hr⟩ :=
    coreUninstallMultiple_failed hdb hunique hrun herror
  refine ⟨removed, bad, rest, db₁, status₁, db₂, hargs, hs, hb, hf, ?_⟩
  by_cases hnil : removed = []
  · subst hnil
    cases hr
    exact ⟨fun _ => .inl rfl, fun _ h' g i =>
      ⟨fun hc => ((hre.others h' g i).mp hc).1,
        fun hc => (hre.others h' g i).mpr ⟨hc, fun _ ha => absurd ha not_mem_nil⟩⟩⟩
  · obtain ⟨-, hk, ho, hal⟩ := reinstallAll_spec hre.linked hre.unique
      (hre.handle_ne_zero hdb hnil) hre.entries hre.gone hre.distinct hr
    rw [← hre.valid_iff, ← hal]
    constructor
    · exact fun hsa arg har => (hsa _ _ _).mpr (hre.carried arg har)
    · intro hba h' g i
      constructor
      · intro hc
        rcases ho h' g i hc with hc | ⟨arg, har, heq⟩
        · exact ((hre.others h' g i).mp hc).1
        · cases heq
          exact hre.carried arg har
      · intro hc
        by_cases hg : ∃ arg ∈ removed, (h', g, i) = (h, arg.protocol, arg.interface)
        · obtain ⟨arg, har, heq⟩ := hg
          cases heq
          exact hba arg har
        · exact hk _ _ _ ((hre.others h' g i).mpr
            ⟨hc, fun arg har heq => hg ⟨arg, har, heq⟩⟩)

end Uninstall

section Samples

/-- The calls that install protocols on a handle at `0x10`. -/
private def carrierOps (protocols : List EfiGuid) : List DbOp :=
  protocols.zipIdx.map fun (g, k) => .install (some (if k = 0 then 0 else 0x10)) (some g) true 0x1000
    ⟨true, true, some (k + 1), some 0x10⟩

private theorem consistent_carrier {protocols : List EfiGuid} {db : HandleDb}
    (hf : (carrierOps protocols).foldlM (fun db (op : DbOp) => op.step db) initialDb = some db) :
    Consistent db := by
  refine consistent_of_run (((Run.of_foldlM hf).restrict (Q := fun op => ∀ db, op.Orderly db)
    ?_).mono fun db op db' hs => ⟨hs.1 db, hs.2⟩)
  intro op hop db
  obtain ⟨x, -, rfl⟩ := mem_map.mp hop
  exact fun _ _ _ _ _ => rfl

/-- A pair to be uninstalled; if it is installed again its interface is at `prot`. -/
private def sampleUninstall (protocol : EfiGuid) (prot : ℕ) : UninstallArg :=
  ⟨protocol, 0x1000, ⟨.nil, .nil⟩, ⟨true, true, some prot, none⟩⟩

/-- The handle carries two protocols; the first is removed, and a third is not there. The first is
installed again. -/
theorem uninstallMultiple_restores_iff_one :
    ∃ db db', coreUninstallMultipleProtocolInterfaces db 0x10
        [sampleUninstall [1] 7, sampleUninstall [3] 8] = some (.invalidParameter, db') ∧
      db.view 1 = some (0x10, [1], 0x1000) ∧ db'.view 7 = some (0x10, [1], 0x1000) ∧
      ∀ h' g i, Carries db' h' g i ↔ Carries db h' g i := by
  have he : ((carrierOps [[1], [2]]).foldlM (fun db (op : DbOp) => op.step db) initialDb).bind
      (fun db => (coreUninstallMultipleProtocolInterfaces db 0x10
        [sampleUninstall [1] 7, sampleUninstall [3] 8]).map fun r =>
          (r.1, decide (db.view 1 = some (0x10, [1], 0x1000)),
            decide (db.view 2 = some (0x10, [2], 0x1000)),
            decide (r.2.view 7 = some (0x10, [1], 0x1000)))) =
      some (.invalidParameter, true, true, true) := by
    decide +kernel
  -- when the second pair is refused there is room for the interface of the first
  have hroom : ((carrierOps [[1], [2]]).foldlM (fun db (op : DbOp) => op.step db) initialDb).bind
      (fun db => (coreUninstallProtocolInterface db 0x10 (some [1]) 0x1000 ⟨.nil, .nil⟩).bind
        fun r => (coreUninstallProtocolInterface r.2 0x10 (some [3]) 0x1000 ⟨.nil, .nil⟩).map
          fun r => (r.2.newProt ⟨true, true, some 7, none⟩).isSome) = some true := by
    decide +kernel
  obtain ⟨db, hf, he⟩ := bind_eq_some_iff.mp he
  obtain ⟨⟨status, db'⟩, hr, he⟩ := map_eq_some_iff.mp he
  simp only [Prod.mk.injEq, decide_eq_true_eq] at he
  obtain ⟨rfl, h₁, h₂, h₇⟩ := he
  rw [hf, bind_some] at hroom
  obtain ⟨⟨status₁, db₁⟩, hun, hsecond⟩ := bind_eq_some_iff.mp hroom
  obtain ⟨⟨status₂, db₂⟩, hun₂, hfree⟩ := map_eq_some_iff.mp hsecond
  have hdb := consistent_carrier hf
  obtain ⟨removed, bad, rest, db₃, status₃, db₄, hargs, hs, hb, -, hiff⟩ :=
    uninstallMultiple_restores_iff hdb.linked hdb.unique hr rfl
  refine ⟨db, db', hr, h₁, h₇, hiff.mpr ?_⟩
  rcases removed with _ | ⟨first, removed⟩
  · exact .inl rfl
  rw [cons_append, cons.injEq] at hargs
  obtain ⟨rfl, hargs⟩ := hargs
  rcases removed with _ | ⟨second, removed⟩
  · rw [nil_append, cons.injEq] at hargs
    obtain ⟨rfl, -⟩ := hargs
    cases hs with
    | cons hs hnil =>
      cases hnil
      cases hun.symm.trans hs
      cases hun₂.symm.trans hb
      refine .inr ⟨⟨[2], 0x1000, ⟨2, h₂⟩, fun arg harg => ?_⟩, hfree, fun _ _ => trivial⟩
      rw [mem_singleton.mp harg]
      decide
  · simp at hargs

/-- The handle carries one protocol, which is removed; a second one is not there. The handle is
gone, and with it the protocol. -/
theorem not_uninstallMultiple_restores :
    ∃ db db', Consistent db ∧
      coreUninstallMultipleProtocolInterfaces db 0x10
        [sampleUninstall [1] 7, sampleUninstall [2] 8] = some (.invalidParameter, db') ∧
      Carries db 0x10 [1] 0x1000 ∧ ¬ Carries db' 0x10 [1] 0x1000 := by
  have he : ((carrierOps [[1]]).foldlM (fun db (op : DbOp) => op.step db) initialDb).bind
      (fun db => (coreUninstallMultipleProtocolInterfaces db 0x10
        [sampleUninstall [1] 7, sampleUninstall [2] 8]).map
          fun r => (r.1, decide (db.view 1 = some (0x10, [1], 0x1000)), r.2.handleList))
      = some (.invalidParameter, true, []) := by
    decide +kernel
  obtain ⟨db, hf, hru⟩ := bind_eq_some_iff.mp he
  obtain ⟨⟨status, db'⟩, hru, heq⟩ := map_eq_some_iff.mp hru
  obtain ⟨hs, heq⟩ := Prod.mk.inj heq
  obtain ⟨hvi, hli⟩ := Prod.mk.inj heq
  subst hs
  have hdb := consistent_carrier hf
  refine ⟨db, db', hdb, hru, ⟨1, of_decide_eq_true hvi⟩, ?_⟩
  obtain ⟨removed, -, -, -, -, db₂, -, -, -, -, hr, hre⟩ :=
    coreUninstallMultiple_failed hdb.linked hdb.unique hru rfl
  have hl : Linked db' := by
    by_cases hnil : removed = []
    · subst hnil
      cases hre
      exact hr.linked
    · exact (reinstallAll_spec hr.linked hr.unique
        (hr.handle_ne_zero hdb.linked hnil) hr.entries hr.gone hr.distinct
        hre).1
  rintro ⟨p, hc⟩
  have hv := (hl.valid_of_view hc).2
  rw [hli] at hv
  exact absurd hv not_mem_nil

end Samples

end Edk2.Hand

import UltraSql.Auth.OrdinarySession

/-!
# Role commands do not escalate privileges

Any number of sessions, each authenticated as an existing role without SUPERUSER, REPLICATION or
BYPASSRLS, run role commands in any interleaving.

A name that has no role counts as a superuser when it is `tester`. A session with CREATEROLE can
make the role `tester`, set its role to it and drop it again, and then is a superuser
(`dropped_tester_is_superuser`).

**Theorem (`no_escalation`).** In every run in which no call removes the role `tester`, no session
is ever a superuser, none has a privileged current user, and the privileged names stay the same.

Each command is shown to be safe for an ordinary session, and the rule for clients does the rest.
-/

namespace UltraSql.Auth

open Option
open Routine (perform fail)

variable {ι : Type} [DecidableEq ι]

abbrev State (ι : Type) := Server.Clients Call RoleCatalog SessionUser ServerError String ι

/-- Sessions authenticated as `users` that have run nothing yet. -/
def login (catalog : RoleCatalog) (users : ι → String) : State ι where
  shared := catalog
  own i := { authUser := users i, currentUser := users i }
  task _ := .ret ""

/-- Sessions that run role commands. -/
def system (readers : Readers) (catalog : RoleCatalog) (users : ι → String) :
    Machine (State ι) (Server.Act ι RoleCommand Outside) :=
  roleServer.machine (RoleCommand.run readers) (login catalog users)

/-- `current_role_is_superuser` of a session. -/
def currentRoleIsSuperuser (s : State ι) (i : ι) : Bool :=
  superuserOf (s.own i).currentUser (s.shared.lookupRole (s.own i).currentUser)

/-- `auth_role_is_superuser` of a session. -/
def authRoleIsSuperuser (s : State ι) (i : ι) : Bool :=
  superuserOf (s.own i).authUser (s.shared.lookupRole (s.own i).authUser)

variable {S : String → Prop} {c : RoleCatalog} {u : SessionUser} {name : String} {τ υ : Type}
  {Q : τ → RoleCatalog → Prop} {Q₂ : υ → RoleCatalog → Prop}

/-! ## Commands -/

/-- The roles that a command lists before its change have the privileged names `S`. -/
theorem matches_listRoles (h : OrdinaryUser S c u) (name : String) :
    (RoleTable.ofList c.roles.listRoles).Privileged name ↔ S name := by
  rw [← h.privileged name, RoleTable.Privileged, RoleTable.lookupRole_ofList_listRoles]
  rfl

variable {memberships : List RoleMembership}

theorem safe_installSnapshot {roles : List RoleEntry} {e : ServerError}
    (hroles : ∀ name, (RoleTable.ofList roles).Privileged name ↔ S name) :
    Safe S (do
      let _ ← perform (.installRoles roles)
      let _ ← perform (.installMemberships memberships)
      fail e : RoleRoutine τ) Q c u := by
  refine .write (fun _ _ _ => rfl) (fun _ c' _ ht => keeps_installRoles hroles ht) fun _ _ => ?_
  exact .write (fun _ _ _ => rfl) (fun _ _ _ _ => .of_roles_eq rfl) fun _ _ => .fail

theorem safe_persistOrRestore {roles : List RoleEntry} {tag : String}
    (hroles : ∀ name, (RoleTable.ofList roles).Privileged name ↔ S name) :
    Safe S (persistOrRestore roles memberships tag) (fun _ _ => True) c u := by
  refine .read (fun _ _ _ => rfl) fun d c' _ _ => ?_
  split
  · exact .ret trivial
  · exact safe_installSnapshot hroles

/-- What a command sees of the catalog before its change. -/
theorem safe_before {g : List RoleEntry → List RoleMembership → RoleRoutine υ}
    (h : ∀ roles memberships c', (∀ name, (RoleTable.ofList roles).Privileged name ↔ S name) →
      Safe S (g roles memberships) Q₂ c' u) :
    Safe S (do
      let beforeRoles ← perform .listRoles
      let beforeMemberships ← perform .listMemberships
      g beforeRoles beforeMemberships) Q₂ c u := by
  refine .read (fun _ _ _ => rfl) fun _ c₁ _ h₁ => ?_
  exact .read (fun _ _ _ => rfl) fun _ c₂ _ _ => h _ _ c₂ (matches_listRoles h₁)

theorem exists_of_bind_eq_ok {ε α β : Type} {x : Except ε α} {g : α → Except ε β} {b : β}
    (h : x >>= g = .ok b) : ∃ a, x = .ok a ∧ g a = .ok b := by
  cases x with
  | error e => cases h
  | ok a => exact ⟨a, rfl, h⟩

variable {kind : LogicalRoleKind} {options : LogicalRoleOptions} {readers : Readers}

theorem isPrivileged_buildRoleEntry {entry : RoleEntry}
    (hopt : roleOptionsGrantPrivilegedAttributes options = false)
    (h : buildRoleEntry readers kind name options = .ok entry) : entry.isPrivileged = false := by
  obtain ⟨-, -, h⟩ := exists_of_bind_eq_ok h
  obtain ⟨password, -, h⟩ := exists_of_bind_eq_ok h
  obtain ⟨validUntil, -, h⟩ := exists_of_bind_eq_ok h
  obtain rfl := Except.ok.inj h
  simp only [roleOptionsGrantPrivilegedAttributes, Bool.or_eq_false_iff,
    decide_eq_false_iff_not] at hopt
  simp only [RoleEntry.isPrivileged, Bool.or_eq_false_iff]
  exact ⟨⟨getD_eq_false hopt.1.1 rfl, getD_eq_false hopt.1.2 rfl⟩, getD_eq_false hopt.2 rfl⟩

theorem safe_executeCreateRole {ifNotExists : Bool} :
    Safe S (executeCreateRole readers u kind name options ifNotExists) (fun _ _ => True) c u := by
  refine .bind safe_ensureRoleAdministration fun _ c₁ _ => ?_
  refine .bind (safe_ensurePrivilegedRoleAttributes rfl) fun _ c₂ hopt => ?_
  cases hentry : buildRoleEntry readers kind name options with
  | error e => exact .fail
  | ok entry =>
    have hpriv := isPrivileged_buildRoleEntry hopt hentry
    refine safe_before fun roles memberships c₃ hroles => ?_
    refine .write (fun _ _ _ => rfl) (fun _ c' hA _ => keeps_createRole hA.privileged hpriv)
      fun r c₄ => ?_
    split
    · exact safe_persistOrRestore hroles
    · split
      · exact .ret trivial
      · exact .fail
    · exact .fail

theorem buildRoleChanges_attributes {changes : RoleEntryChanges}
    (h : buildRoleChanges readers options = .ok changes) :
    changes.isSuperuser = options.superuser ∧ changes.replication = options.replication ∧
      changes.bypassRls = options.bypassRls := by
  obtain ⟨-, -, h⟩ := exists_of_bind_eq_ok h
  obtain ⟨password, -, h⟩ := exists_of_bind_eq_ok h
  obtain ⟨validUntil, -, h⟩ := exists_of_bind_eq_ok h
  obtain rfl := Except.ok.inj h
  exact ⟨rfl, rfl, rfl⟩

theorem safe_executeAlterRole :
    Safe S (executeAlterRole readers u name options) (fun _ _ => True) c u := by
  refine .bind safe_ensureRoleAdministration fun _ c₁ _ => ?_
  refine .bind (safe_ensureSuperuserTarget (.inr rfl)) fun _ c₂ hS => ?_
  refine .bind (safe_ensurePrivilegedRoleAttributes rfl) fun _ c₃ hopt => ?_
  split
  · exact .fail
  · cases hchanges : buildRoleChanges readers options with
    | error e => exact .fail
    | ok changes =>
      obtain ⟨hsuper, hrepl, hbypass⟩ := buildRoleChanges_attributes hchanges
      simp only [roleOptionsGrantPrivilegedAttributes, Bool.or_eq_false_iff,
        decide_eq_false_iff_not] at hopt
      refine safe_before fun roles memberships c₄ hroles => ?_
      refine .write (fun _ _ _ => rfl) (fun _ c' hA _ => keeps_alterRole hA.privileged hS
        (hsuper ▸ hopt.1.1) (hrepl ▸ hopt.1.2) (hbypass ▸ hopt.2)) fun r c₅ => ?_
      split
      · exact safe_persistOrRestore hroles
      · exact .fail

theorem safe_roleDropDependencies :
    Safe S (roleDropDependencies name) (fun _ _ => True) c u := by
  refine .read (fun _ _ _ => rfl) fun _ c₁ _ _ => ?_
  exact .read (fun _ _ _ => rfl) fun _ c₂ _ _ => .ret trivial

theorem safe_checkDrop : Safe S (checkDrop u.currentUser name) (fun _ _ => ¬ S name) c u := by
  unfold checkDrop
  split
  · exact .fail
  · refine .read (fun _ _ _ => rfl) fun _ c₁ _ hA => ?_
    split
    · rename_i hnone
      refine .ret fun hS => ?_
      obtain ⟨e, he, -⟩ := (hA.privileged name).2 hS
      exact some_ne_none e (he.symm.trans hnone)
    · refine .bind (safe_ensureSuperuserTarget (.inr rfl)) fun _ c₂ hS => ?_
      refine .bind safe_roleDropDependencies fun deps c₃ _ => ?_
      split
      · exact .ret hS
      · exact .fail

variable {ifExists adminOption : Bool}

theorem safe_dropEach {roles : List RoleEntry}
    (hroles : ∀ name, (RoleTable.ofList roles).Privileged name ↔ S name) (hS : ¬ S name) :
    Safe S (dropEach ifExists roles memberships name) (fun _ _ => True) c u := by
  refine .write (fun _ _ _ => rfl) (fun _ c' hA ht => keeps_dropRole hA.privileged hS ht)
    fun r c₁ => ?_
  split
  · exact .ret trivial
  · split
    · exact .ret trivial
    · exact safe_installSnapshot hroles

variable {roles grantees : List String}

theorem safe_executeDropRole : Safe S (executeDropRole u roles ifExists) (fun _ _ => True) c u := by
  refine .bind safe_ensureRoleAdministration fun _ c₁ _ => ?_
  refine .bind (.forEach fun name _ c => safe_checkDrop) fun _ c₂ hS => ?_
  refine safe_before fun before memberships c₃ hbefore => ?_
  refine .bind (.forEach fun name hname c => safe_dropEach hbefore (hS name hname))
    fun _ c₄ _ => ?_
  exact safe_persistOrRestore hbefore

theorem safe_anyPrivileged : Safe S (anyPrivileged roles) (fun _ _ => True) c u := by
  induction roles generalizing c with
  | nil => exact .ret trivial
  | cons role roles ih =>
    refine .bind safe_lookupRoleIsPrivileged fun b c₁ _ => ?_
    split
    · exact .ret trivial
    · exact ih

theorem safe_ensurePrivilegedRoleMembershipGrant :
    Safe S (ensurePrivilegedRoleMembershipGrant u.currentUser roles) (fun _ _ => True) c u := by
  refine .bind (safe_roleIsSuperuser (.inr rfl)) fun b c₁ _ => ?_
  split
  · exact .ret trivial
  · refine .bind safe_anyPrivileged fun b c₂ _ => ?_
    split
    · exact .fail
    · exact .ret trivial

theorem safe_grantRoles {members : List String} :
    Safe S (grantRoles name roles members adminOption) (fun _ _ => True) c u := by
  refine .read (fun _ _ _ => rfl) fun _ c₁ _ _ => ?_
  split
  · exact .ret trivial
  · refine .write (g := pure) (fun _ _ _ => rfl) (fun _ _ _ _ => .of_roles_eq rfl) ?_
    exact fun _ _ => .ret trivial

theorem safe_executeGrantRole :
    Safe S (executeGrantRole u roles grantees adminOption) (fun _ _ => True) c u := by
  refine .bind safe_ensureRoleAdministration fun _ c₁ _ => ?_
  refine .bind safe_ensurePrivilegedRoleMembershipGrant fun _ c₂ _ => ?_
  refine safe_before fun before memberships c₃ hbefore => ?_
  refine .bind safe_grantRoles fun r c₄ _ => ?_
  split
  · exact safe_persistOrRestore hbefore
  · exact .fail

theorem safe_ensureRoleReferencesExist :
    Safe S (ensureRoleReferencesExist roles) (fun _ _ => ∀ role ∈ roles, True) c u := by
  refine .forEach (F := fun _ => True) fun role _ c => ?_
  refine .read (fun _ _ _ => rfl) fun _ c₁ _ _ => ?_
  split
  · exact .fail
  · exact .ret trivial

theorem safe_executeRevokeRole :
    Safe S (executeRevokeRole u roles grantees) (fun _ _ => True) c u := by
  refine .bind safe_ensureRoleAdministration fun _ c₁ _ => ?_
  refine .bind safe_ensureRoleReferencesExist fun _ c₂ _ => ?_
  refine .bind safe_ensureRoleReferencesExist fun _ c₃ _ => ?_
  refine safe_before fun before memberships c₄ hbefore => ?_
  refine .write (fun _ _ _ => rfl) (fun _ _ _ _ => .of_roles_eq rfl) fun _ c₅ => ?_
  exact safe_persistOrRestore hbefore

/-! ## SET ROLE -/

variable {target : String}

/-- A target that may be set exists. -/
theorem safe_canSetRole :
    Safe S (canSetRole name target)
      (fun b c' => b = true → normalizeRoleName target = "tester" → c'.lookupRole "tester" ≠ none)
      c u := by
  refine .read (fun _ _ _ => rfl) fun _ c₁ _ _ => ?_
  split
  · exact .ret fun h => by cases h
  · refine .read (fun _ _ _ => rfl) fun _ c₂ _ _ => ?_
    split
    · exact .ret fun h => by cases h
    · rename_i e he
      have hfound : normalizeRoleName target = "tester" → c₂.lookupRole "tester" ≠ none :=
        fun hn => ((lookupRole_tester hn).trans he).trans_ne (some_ne_none e)
      split
      · exact .ret fun _ => hfound
      · refine .read (g := pure) (fun _ _ _ => rfl) fun _ c₃ hR _ => ?_
        exact .ret fun _ hn => hR.tester (hfound hn)

theorem safe_ensureSetRoleTargetNotPrivileged :
    Safe S (ensureSetRoleTargetNotPrivileged u.authUser target) (fun _ _ => ¬ S target) c u :=
  safe_ensureSuperuserTarget (.inl rfl)

theorem sat_setCurrentUser (h : ∀ c', Keeps S c c' → OrdinaryUser S c' u → Ordinary S c' name) :
    roleServer.Sat (Keeps S) (OrdinaryUser S) KeepsTester
      (do let _ ← perform (.setCurrentUser name); pure "SET ROLE" : RoleRoutine String)
      (fun _ _ _ => True) c u := by
  refine .perform fun c' d hR hA _ => ⟨.refl c', ?_, trivial⟩
  exact ⟨hA.privileged, hA.auth, h c' hR hA⟩

theorem sat_executeSetRole {role : Option String} :
    roleServer.Sat (Keeps S) (OrdinaryUser S) KeepsTester (executeSetRole u role)
      (fun _ _ _ => True) c u := by
  cases role with
  | none => exact sat_setCurrentUser fun c' _ hA => hA.auth
  | some role =>
    unfold executeSetRole
    dsimp only
    split
    · exact sat_setCurrentUser fun c' _ hA => hA.auth
    · refine .bind safe_canSetRole fun b c₁ u₁ hb => ?_
      obtain ⟨rfl, hb⟩ := hb
      cases b with
      | false => trivial
      | true =>
        have htarget : Safe S (ensureSetRoleTargetNotPrivileged u₁.authUser role)
            (fun _ _ => ¬ S role) c₁ u₁ := safe_ensureSetRoleTargetNotPrivileged
        refine .bind (htarget.frame (fun _ _ hR hn ht => hR.tester (hn ht)) (hb rfl)
          fun _ _ _ => And.intro) ?_
        intro _ c₂ u₂ h₂
        obtain ⟨⟨rfl, hS⟩, ht⟩ := h₂
        exact sat_setCurrentUser fun c' hR _ => ⟨hS, fun hn => hR.tester (ht hn)⟩

/-! ## Runs -/

theorem sat_run (readers : Readers) (cmd : RoleCommand) :
    roleServer.Sat (Keeps S) (OrdinaryUser S) KeepsTester (cmd.run readers u) (fun _ _ _ => True)
      c u := by
  have hsafe : ∀ {t : RoleRoutine String}, Safe S t (fun _ _ => True) c u →
      roleServer.Sat (Keeps S) (OrdinaryUser S) KeepsTester t (fun _ _ _ => True) c u :=
    fun h => h.frame (F := fun _ => True) (fun _ _ _ => id) trivial fun _ _ _ _ => id
  cases cmd with
  | createRole => exact hsafe safe_executeCreateRole
  | alterRole => exact hsafe safe_executeAlterRole
  | dropRole => exact hsafe safe_executeDropRole
  | grantRole => exact hsafe safe_executeGrantRole
  | revokeRole => exact hsafe safe_executeRevokeRole
  | setRole => exact sat_executeSetRole

/-- **No escalation.** Sessions authenticated as roles without SUPERUSER, REPLICATION or BYPASSRLS
stay so, whatever role commands they run, as long as the role `tester` is not removed. -/
theorem no_escalation (readers : Readers) (catalog : RoleCatalog) (users : ι → String)
    (husers : ∀ i, ∃ e, catalog.lookupRole (users i) = some e ∧ e.isPrivileged = false)
    {s : State ι} (h : (system readers catalog users).Reach (Server.Guarded KeepsTester) s) :
    (∀ i, currentRoleIsSuperuser s i = false ∧ authRoleIsSuperuser s i = false ∧
      ¬ s.shared.roles.Privileged (s.own i).currentUser) ∧
    ∀ name, s.shared.roles.Privileged name ↔ catalog.roles.Privileged name := by
  have hstart : ∀ i, Ordinary catalog.roles.Privileged catalog (users i) := by
    intro i
    obtain ⟨e, he, hp⟩ := husers i
    refine ⟨not_privileged_of_lookup he fun e' h' => ?_,
      fun hn => ((lookupRole_tester hn).trans he).trans_ne (some_ne_none e)⟩
    rw [← some.inj h']
    exact hp
  have hinit : ∀ i, Server.Client roleServer (Keeps catalog.roles.Privileged)
      (OrdinaryUser catalog.roles.Privileged) KeepsTester catalog
      ((login catalog users).own i) ((login catalog users).task i) := fun i =>
    ⟨⟨fun _ => Iff.rfl, hstart i, hstart i⟩, trivial⟩
  obtain ⟨hR, hs⟩ := Server.reach Keeps.refl (fun _ _ _ => Keeps.trans)
    (fun _ _ _ hR hA => hA.keeps hR) (fun cmd c u _ => sat_run readers cmd) hinit h
  have hm : Matches catalog.roles.Privileged s.shared := hR.privileged fun _ => Iff.rfl
  refine ⟨fun i => ⟨?_, ?_, ?_⟩, hm⟩
  · exact superuserOf_eq_false hm (hs i).own.current
  · exact superuserOf_eq_false hm (hs i).own.auth
  · exact fun hp => (hs i).own.current.unprivileged ((hm _).1 hp)

/-! ## The role `tester` -/

section Runs

/-- Passwords are kept as they are and timestamps are not read. -/
def plainReaders : Readers where
  hashRolePassword password := .ok password
  parseValidUntil _ := .ok none

/-- `alice` may create roles. -/
def aliceCatalog : RoleCatalog where
  roles := RoleTable.empty.insert {
    name := "alice", password := none, isSuperuser := false, inherit := true, createRole := true,
    createDb := false, canLogin := true, replication := false, bypassRls := false,
    connectionLimit := -1, validUntil := none }
  memberships := ∅

/-- One session runs a command of `n` calls, all of which find the metadata file writable and no
dependent objects. -/
def command (cmd : RoleCommand) (n : ℕ) : List (Server.Act Unit RoleCommand Outside) :=
  .start () cmd :: List.replicate n (.call () { persisted := true, dependents := [] })

theorem member_sets_role :
    ∃ s, ((system plainReaders aliceCatalog fun _ : Unit => "alice").Reach
        (Server.Guarded KeepsTester) s ∧ (s.own ()).currentUser = "app") ∧
      currentRoleIsSuperuser s () = false ∧ ¬ s.shared.roles.Privileged "app" := by
  obtain ⟨s, hs, hcur⟩ := Machine.exists_reach_of_runIf
    (M := system plainReaders aliceCatalog fun _ : Unit => "alice")
    (C := Server.Guarded KeepsTester) (p := fun s => (s.own ()).currentUser = "app")
    (command (.createRole .role "app" {} false) 5 ++
      command (.grantRole ["app"] ["alice"] false) 8 ++
      command (.setRole (some "app")) 6) (by decide)
  have hsafe := no_escalation plainReaders aliceCatalog (fun _ => "alice")
    (fun _ => ⟨_, rfl, rfl⟩) hs
  have happ := (hsafe.1 ()).2.2
  rw [hcur] at happ
  exact ⟨s, ⟨hs, hcur⟩, (hsafe.1 ()).1, happ⟩

/-- `alice` makes the role `tester`, sets their role to it and drops it. They are then a superuser,
and create another one. -/
theorem dropped_tester_is_superuser :
    (aliceCatalog.lookupRole "alice").map RoleEntry.isPrivileged = some false ∧
    ∃ s, (system plainReaders aliceCatalog fun _ : Unit => "alice").Reach Machine.Always s ∧
      currentRoleIsSuperuser s () = true ∧ s.shared.roles.Privileged "evil" ∧
      ¬ aliceCatalog.roles.Privileged "evil" := by
  refine ⟨by decide, ?_⟩
  exact Machine.exists_reach_of_runIf
    (M := system plainReaders aliceCatalog fun _ : Unit => "alice") (C := Machine.Always)
    (p := fun s => currentRoleIsSuperuser s () = true ∧ s.shared.roles.Privileged "evil" ∧
      ¬ aliceCatalog.roles.Privileged "evil")
    (command (.createRole .role "tester" { createRole := some true } false) 5 ++
      command (.grantRole ["tester"] ["alice"] false) 8 ++
      command (.setRole (some "tester")) 6 ++
      command (.revokeRole ["tester"] ["alice"]) 7 ++
      command (.dropRole ["tester"] false) 10 ++
      command (.createRole .role "evil" { superuser := some true } false) 6) (by decide)

end Runs

end UltraSql.Auth

import UltraSql.Auth.RoleCatalog
import UltraSql.Lib.Routine

/-!
# Role commands

The role DDL of a session, `CREATE`, `ALTER` and `DROP ROLE`, `GRANT` and `REVOKE` of roles and
`SET ROLE`, with the guards in the order the source runs them. Every access to the catalog is a
call of its own, because the catalog's locks are released in between.

Three things come from outside: whether the metadata file can be written, which other objects
depend on a role, and how passwords and timestamps are read.
-/

namespace UltraSql.Auth

inductive ServerError
  | ddl (message : String)
  | insufficientPrivilege (message : String)
  | dependentObjectsStillExist (message : String)
  | undefinedObject (message : String)
  | catalog (e : CatalogError)
  | metadata
deriving DecidableEq

structure SessionUser where
  authUser : String
  currentUser : String
deriving DecidableEq

/-! ## Calls -/

/-- One access to the catalog, or to what lies outside it, and what it returns. -/
inductive Call : Type → Type
  | lookupRole (name : String) : Call (Option RoleEntry)
  | listRoles : Call (List RoleEntry)
  | listMemberships : Call (List RoleMembership)
  | createRole (entry : RoleEntry) : Call (Except CatalogError Unit)
  | alterRole (name : String) (changes : RoleEntryChanges) : Call (Except CatalogError Unit)
  | dropRole (name : String) : Call (Except CatalogError Unit)
  | checkExisting (names : List String) : Call (Except CatalogError Unit)
  | grantMemberships (grantor : String) (adminOption : Bool) (edges : List (String × String)) :
      Call (Except CatalogError Unit)
  | revokeRoles (roles members : List String) : Call Unit
  | membershipPathExists (startMember targetRole : String) : Call Bool
  | installRoles (roles : List RoleEntry) : Call Unit
  | installMemberships (memberships : List RoleMembership) : Call Unit
  | persistRoleMetadata : Call Bool
  | objectDependencies (role : String) : Call (List String)
  | setCurrentUser (name : String) : Call Unit

/-- What a call learns from outside: whether the metadata file is written, and the objects that
depend on the role it asks about. -/
structure Outside where
  persisted : Bool
  dependents : List String

def roleServer : Server Call RoleCatalog SessionUser Outside where
  exec
    | .lookupRole name, _, c, u => (c.lookupRole name, c, u)
    | .listRoles, _, c, u => (c.roles.listRoles, c, u)
    | .listMemberships, _, c, u => (c.memberships.values, c, u)
    | .createRole entry, _, c, u => ((c.createRole entry).1, (c.createRole entry).2, u)
    | .alterRole name changes, _, c, u =>
      ((c.alterRole name changes).1, (c.alterRole name changes).2, u)
    | .dropRole name, _, c, u => ((c.dropRole name).1, (c.dropRole name).2, u)
    | .checkExisting names, _, c, u => (c.checkExisting names, c, u)
    | .grantMemberships grantor adminOption edges, _, c, u =>
      let out := grantMemberships grantor adminOption edges c.memberships
      (out.1, { c with memberships := out.2 }, u)
    | .revokeRoles roles members, _, c, u => ((), c.revokeRoles roles members, u)
    | .membershipPathExists startMember targetRole, _, c, u =>
      (membershipPathExists c.memberships startMember targetRole, c, u)
    | .installRoles roles, _, c, u => ((), { c with roles := .ofList roles }, u)
    | .installMemberships memberships, _, c, u =>
      ((), { c with memberships := membershipsOf memberships }, u)
    | .persistRoleMetadata, d, c, u => (d.persisted, c, u)
    | .objectDependencies _, d, c, u => (d.dependents, c, u)
    | .setCurrentUser name, _, c, u => ((), c, { u with currentUser := name })

abbrev RoleRoutine := Routine Call ServerError

open Routine (perform fail forEach ofExcept)

/-! ## Superusers -/

/-- What `role_is_superuser` makes of the role it finds under a name. A name without a role counts
as a superuser when it is `tester`. -/
def superuserOf (name : String) : Option RoleEntry → Bool
  | some role => role.isSuperuser
  | none => eqIgnoreAsciiCase name "tester"

/-- `role_is_superuser`, the answer of `current_role_is_superuser` and of
`auth_role_is_superuser`. -/
def roleIsSuperuser (name : String) : RoleRoutine Bool := do
  let role ← perform (.lookupRole name)
  pure (superuserOf name role)

/-- `lookup_role_is_privileged`. -/
def lookupRoleIsPrivileged (name : String) : RoleRoutine Bool := do
  let role ← perform (.lookupRole name)
  pure (role.any RoleEntry.isPrivileged)

/-! ## Options -/

/-- `CREATE ROLE` or `CREATE USER`. -/
inductive LogicalRoleKind
  | role
  | user
deriving DecidableEq

/-- The options of `CREATE ROLE` and `ALTER ROLE`. -/
structure LogicalRoleOptions where
  superuser : Option Bool := none
  inherit : Option Bool := none
  createRole : Option Bool := none
  createDb : Option Bool := none
  canLogin : Option Bool := none
  replication : Option Bool := none
  bypassRls : Option Bool := none
  connectionLimit : Option ℤ := none
  password : Option (Option String) := none
  validUntil : Option String := none

/-- How the server reads passwords and timestamps. -/
structure Readers where
  hashRolePassword : Option String → Except ServerError (Option String)
  parseValidUntil : String → Except ServerError (Option ℤ)

/-- `validate_connection_limit`. -/
def validateConnectionLimit (value : ℤ) : Except ServerError Unit :=
  if value < -1 then .error (.ddl "role CONNECTION LIMIT must be -1 or greater") else .ok ()

/-- `build_role_entry`. -/
def buildRoleEntry (readers : Readers) (kind : LogicalRoleKind) (roleName : String)
    (options : LogicalRoleOptions) : Except ServerError RoleEntry := do
  let _ ← options.connectionLimit.mapM validateConnectionLimit
  let password ← options.password.mapM readers.hashRolePassword
  let validUntil ← options.validUntil.mapM readers.parseValidUntil
  pure {
    name := roleName
    password := password.getD none
    isSuperuser := options.superuser.getD false
    inherit := options.inherit.getD true
    createRole := options.createRole.getD false
    createDb := options.createDb.getD false
    canLogin := options.canLogin.getD (kind = .user)
    replication := options.replication.getD false
    bypassRls := options.bypassRls.getD false
    connectionLimit := options.connectionLimit.getD (-1)
    validUntil := validUntil.getD none }

/-- `build_role_changes`. -/
def buildRoleChanges (readers : Readers) (options : LogicalRoleOptions) :
    Except ServerError RoleEntryChanges := do
  let _ ← options.connectionLimit.mapM validateConnectionLimit
  let password ← options.password.mapM readers.hashRolePassword
  let validUntil ← options.validUntil.mapM readers.parseValidUntil
  pure {
    password
    isSuperuser := options.superuser
    inherit := options.inherit
    createRole := options.createRole
    createDb := options.createDb
    canLogin := options.canLogin
    replication := options.replication
    bypassRls := options.bypassRls
    connectionLimit := options.connectionLimit
    validUntil }

/-- `bootstrap_role_privileges_change`. -/
def bootstrapRolePrivilegesChange (options : LogicalRoleOptions) : Bool :=
  options.superuser.isSome || options.inherit.isSome || options.createRole.isSome ||
    options.createDb.isSome || options.canLogin.isSome || options.connectionLimit.isSome ||
    options.validUntil.isSome

/-- `role_options_grant_privileged_attributes`. -/
def roleOptionsGrantPrivilegedAttributes (options : LogicalRoleOptions) : Bool :=
  options.superuser = some true || options.replication = some true ||
    options.bypassRls = some true

/-! ## Guards -/

/-- `ensure_role_administration`. -/
def ensureRoleAdministration (currentUser : String) : RoleRoutine Unit := do
  match ← perform (.lookupRole currentUser) with
  | some role =>
    if role.isSuperuser || role.createRole then pure ()
    else fail (.insufficientPrivilege "role management requires CREATEROLE")
  | none =>
    if eqIgnoreAsciiCase currentUser "tester" then pure ()
    else fail (.insufficientPrivilege ("role " ++ currentUser ++ " is not registered"))

/-- `ensure_role_references_exist`. -/
def ensureRoleReferencesExist : List String → RoleRoutine Unit :=
  forEach fun role => do
    match ← perform (.lookupRole role) with
    | none => fail (.undefinedObject ("role '" ++ role ++ "' does not exist"))
    | some _ => pure ()

/-- Whether one of the roles is privileged, asked in turn until the first that is. -/
def anyPrivileged : List String → RoleRoutine Bool
  | [] => pure false
  | role :: roles => do
    if ← lookupRoleIsPrivileged role then pure true else anyPrivileged roles

/-- `ensure_privileged_role_membership_grant`. -/
def ensurePrivilegedRoleMembershipGrant (currentUser : String) (roles : List String) :
    RoleRoutine Unit := do
  if ← roleIsSuperuser currentUser then pure ()
  else if ← anyPrivileged roles then
    fail (.insufficientPrivilege "granting privileged role memberships requires SUPERUSER")
  else pure ()

/-- `ensure_set_role_target_not_privileged`. -/
def ensureSetRoleTargetNotPrivileged (authUser role : String) : RoleRoutine Unit := do
  if ← roleIsSuperuser authUser then pure ()
  else if ← lookupRoleIsPrivileged role then
    fail (.insufficientPrivilege "setting privileged roles requires SUPERUSER")
  else pure ()

/-- `ensure_privileged_role_attributes`. -/
def ensurePrivilegedRoleAttributes (currentUser : String) (options : LogicalRoleOptions) :
    RoleRoutine Unit := do
  if !roleOptionsGrantPrivilegedAttributes options then pure ()
  else if ← roleIsSuperuser currentUser then pure ()
  else
    fail (.insufficientPrivilege
      "setting SUPERUSER, REPLICATION, or BYPASSRLS requires SUPERUSER")

/-- The body that `ensure_superuser_target_alteration` and `ensure_superuser_target_drop` share. -/
def ensureSuperuserTarget (message : String) (currentUser roleName : String) :
    RoleRoutine Unit := do
  if ← roleIsSuperuser currentUser then pure ()
  else if ← lookupRoleIsPrivileged roleName then fail (.insufficientPrivilege message)
  else pure ()

/-- `ensure_superuser_target_alteration`. -/
def ensureSuperuserTargetAlteration : String → String → RoleRoutine Unit :=
  ensureSuperuserTarget "altering privileged roles requires SUPERUSER"

/-- `ensure_superuser_target_drop`. -/
def ensureSuperuserTargetDrop : String → String → RoleRoutine Unit :=
  ensureSuperuserTarget "must be superuser to drop superuser/replication/bypassrls roles"

/-- `can_set_role`. -/
def canSetRole (sessionUser target : String) : RoleRoutine Bool := do
  match ← perform (.lookupRole sessionUser) with
  | none => pure false
  | some sessionEntry =>
    match ← perform (.lookupRole target) with
    | none => pure false
    | some _ =>
      if eqIgnoreAsciiCase sessionUser target || sessionEntry.isSuperuser then pure true
      else
        perform (.membershipPathExists (normalizeRoleName sessionUser) (normalizeRoleName target))

/-! ## Commands -/

/-- Write the metadata file, and put back the catalog as it was before the command when that
fails. -/
def persistOrRestore (beforeRoles : List RoleEntry) (beforeMemberships : List RoleMembership)
    (tag : String) : RoleRoutine String := do
  if ← perform .persistRoleMetadata then pure tag
  else
    let _ ← perform (.installRoles beforeRoles)
    let _ ← perform (.installMemberships beforeMemberships)
    fail .metadata

/-- `execute_create_role`. -/
def executeCreateRole (readers : Readers) (user : SessionUser) (kind : LogicalRoleKind)
    (roleName : String) (options : LogicalRoleOptions) (ifNotExists : Bool) :
    RoleRoutine String := do
  ensureRoleAdministration user.currentUser
  ensurePrivilegedRoleAttributes user.currentUser options
  let entry ← ofExcept (buildRoleEntry readers kind roleName options)
  let beforeRoles ← perform .listRoles
  let beforeMemberships ← perform .listMemberships
  match ← perform (.createRole entry) with
  | .ok _ => persistOrRestore beforeRoles beforeMemberships "CREATE ROLE"
  | .error (.alreadyExists name) =>
    if ifNotExists then pure "CREATE ROLE" else fail (.catalog (.alreadyExists name))
  | .error e => fail (.catalog e)

/-- `execute_alter_role`. -/
def executeAlterRole (readers : Readers) (user : SessionUser) (roleName : String)
    (options : LogicalRoleOptions) : RoleRoutine String := do
  ensureRoleAdministration user.currentUser
  ensureSuperuserTargetAlteration user.currentUser roleName
  ensurePrivilegedRoleAttributes user.currentUser options
  if eqIgnoreAsciiCase roleName "ultrasql" && bootstrapRolePrivilegesChange options then
    fail (.ddl "cannot alter bootstrap role privileges for ultrasql")
  else
    let changes ← ofExcept (buildRoleChanges readers options)
    let beforeRoles ← perform .listRoles
    let beforeMemberships ← perform .listMemberships
    match ← perform (.alterRole roleName changes) with
    | .ok _ => persistOrRestore beforeRoles beforeMemberships "ALTER ROLE"
    | .error e => fail (.catalog e)

/-- The memberships in which a role appears, as `role_drop_dependencies` names them. -/
def membershipDependencies (role : String) (membership : RoleMembership) : List String :=
  (if eqIgnoreAsciiCase membership.role role then
    ["role membership granted to " ++ membership.member] else []) ++
  (if eqIgnoreAsciiCase membership.member role then
    ["role membership in " ++ membership.role] else []) ++
  (if eqIgnoreAsciiCase membership.grantor role then
    ["role membership grant of " ++ membership.role ++ " to " ++ membership.member] else [])

/-- `role_drop_dependencies`, not sorted. -/
def roleDropDependencies (role : String) : RoleRoutine (List String) := do
  let objects ← perform (.objectDependencies role)
  let memberships ← perform .listMemberships
  pure (objects ++ memberships.flatMap (membershipDependencies role)).dedup

/-- The checks of `execute_drop_role` on one role. -/
def checkDrop (currentUser role : String) : RoleRoutine Unit := do
  if eqIgnoreAsciiCase role "ultrasql" then fail (.ddl "cannot drop bootstrap role ultrasql")
  else
    match ← perform (.lookupRole role) with
    | none => pure ()
    | some _ =>
      ensureSuperuserTargetDrop currentUser role
      let dependencies ← roleDropDependencies role
      if dependencies.isEmpty then pure ()
      else
        fail (.dependentObjectsStillExist ("cannot drop role " ++ role ++
          " because other objects depend on it: " ++ ", ".intercalate dependencies))

/-- The loop of `execute_drop_role` that drops. -/
def dropEach (ifExists : Bool) (beforeRoles : List RoleEntry)
    (beforeMemberships : List RoleMembership) (role : String) : RoleRoutine Unit := do
  match ← perform (.dropRole role) with
  | .ok _ => pure ()
  | .error e =>
    if e.isNotFound && ifExists then pure ()
    else
      let _ ← perform (.installRoles beforeRoles)
      let _ ← perform (.installMemberships beforeMemberships)
      fail (.catalog e)

/-- `execute_drop_role`. -/
def executeDropRole (user : SessionUser) (roles : List String) (ifExists : Bool) :
    RoleRoutine String := do
  ensureRoleAdministration user.currentUser
  forEach (checkDrop user.currentUser) roles
  let beforeRoles ← perform .listRoles
  let beforeMemberships ← perform .listMemberships
  forEach (dropEach ifExists beforeRoles beforeMemberships) roles
  persistOrRestore beforeRoles beforeMemberships "DROP ROLE"

/-- `grant_roles`. -/
def grantRoles (grantor : String) (roles members : List String) (adminOption : Bool) :
    RoleRoutine (Except CatalogError Unit) := do
  match ← perform (.checkExisting (roles ++ members)) with
  | .error e => pure (.error e)
  | .ok _ => perform (.grantMemberships grantor adminOption (edgesOf roles members))

/-- `execute_grant_role`. -/
def executeGrantRole (user : SessionUser) (roles grantees : List String) (adminOption : Bool) :
    RoleRoutine String := do
  ensureRoleAdministration user.currentUser
  ensurePrivilegedRoleMembershipGrant user.currentUser roles
  let beforeRoles ← perform .listRoles
  let beforeMemberships ← perform .listMemberships
  match ← grantRoles user.currentUser roles grantees adminOption with
  | .ok _ => persistOrRestore beforeRoles beforeMemberships "GRANT ROLE"
  | .error e => fail (.catalog e)

/-- `execute_revoke_role`. -/
def executeRevokeRole (user : SessionUser) (roles grantees : List String) :
    RoleRoutine String := do
  ensureRoleAdministration user.currentUser
  ensureRoleReferencesExist roles
  ensureRoleReferencesExist grantees
  let beforeRoles ← perform .listRoles
  let beforeMemberships ← perform .listMemberships
  let _ ← perform (.revokeRoles roles grantees)
  persistOrRestore beforeRoles beforeMemberships "REVOKE ROLE"

/-- `execute_set_role`. -/
def executeSetRole (user : SessionUser) : Option String → RoleRoutine String
  | some role => do
    if eqIgnoreAsciiCase role user.authUser then
      let _ ← perform (.setCurrentUser user.authUser)
      pure "SET ROLE"
    else if ← canSetRole user.authUser role then
      ensureSetRoleTargetNotPrivileged user.authUser role
      let _ ← perform (.setCurrentUser role)
      pure "SET ROLE"
    else fail (.insufficientPrivilege ("permission denied to set role " ++ role))
  | none => do
    let _ ← perform (.setCurrentUser user.authUser)
    pure "SET ROLE"

inductive RoleCommand
  | createRole (kind : LogicalRoleKind) (roleName : String) (options : LogicalRoleOptions)
      (ifNotExists : Bool)
  | alterRole (roleName : String) (options : LogicalRoleOptions)
  | dropRole (roles : List String) (ifExists : Bool)
  | grantRole (roles grantees : List String) (adminOption : Bool)
  | revokeRole (roles grantees : List String)
  | setRole (role : Option String)

def RoleCommand.run (readers : Readers) : RoleCommand → SessionUser → RoleRoutine String
  | .createRole kind roleName options ifNotExists, user =>
    executeCreateRole readers user kind roleName options ifNotExists
  | .alterRole roleName options, user => executeAlterRole readers user roleName options
  | .dropRole roles ifExists, user => executeDropRole user roles ifExists
  | .grantRole roles grantees adminOption, user =>
    executeGrantRole user roles grantees adminOption
  | .revokeRole roles grantees, user => executeRevokeRole user roles grantees
  | .setRole role, user => executeSetRole user role

end UltraSql.Auth

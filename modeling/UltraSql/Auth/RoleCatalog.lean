import UltraSql.Lib.FiniteMap

/-!
# The role catalog

The in-memory `pg_authid`: roles under their lower-cased names, and the memberships granted
between them. Each definition is one critical section of the source's catalog, so `grant_roles`
comes as the check that reads the roles and the loop that writes the memberships, and
`install_snapshot` as its two assignments. OIDs are left out.

`RoleTable.Privileged` holds of the names that carry one of the three attributes only a superuser
may give away.

**Theorem (`lookupRole_ofList_listRoles`).** Installing the roles that `list_roles` returned gives
back the same lookups.

**Theorem (`membershipPathExists_iff`).** The search for a membership path answers whether there is
one, and ends after at most as many rounds as there are memberships and one.
-/

namespace UltraSql.Auth

open Option

/-! ## Names -/

/-- `to_ascii_lowercase`. -/
def normalizeRoleName (name : String) : String :=
  String.ofList (name.toList.map Char.toLower)

/-- `eq_ignore_ascii_case`. -/
def eqIgnoreAsciiCase (a b : String) : Bool := normalizeRoleName a = normalizeRoleName b

@[simp] theorem normalizeRoleName_idem (name : String) :
    normalizeRoleName (normalizeRoleName name) = normalizeRoleName name := by
  simp [normalizeRoleName, Function.comp_def]

/-! ## Roles -/

structure RoleEntry where
  name : String
  password : Option String
  isSuperuser : Bool
  inherit : Bool
  createRole : Bool
  createDb : Bool
  canLogin : Bool
  replication : Bool
  bypassRls : Bool
  connectionLimit : ℤ
  validUntil : Option ℤ
deriving DecidableEq

/-- `role_is_privileged_membership_target`. -/
def RoleEntry.isPrivileged (role : RoleEntry) : Bool :=
  role.isSuperuser || role.replication || role.bypassRls

/-- What `ALTER ROLE` changes. -/
structure RoleEntryChanges where
  password : Option (Option String)
  isSuperuser : Option Bool
  inherit : Option Bool
  createRole : Option Bool
  createDb : Option Bool
  canLogin : Option Bool
  replication : Option Bool
  bypassRls : Option Bool
  connectionLimit : Option ℤ
  validUntil : Option (Option ℤ)

/-- The assignments of `alter_role`. -/
def RoleEntryChanges.apply (changes : RoleEntryChanges) (entry : RoleEntry) : RoleEntry where
  name := entry.name
  password := changes.password.getD entry.password
  isSuperuser := changes.isSuperuser.getD entry.isSuperuser
  inherit := changes.inherit.getD entry.inherit
  createRole := changes.createRole.getD entry.createRole
  createDb := changes.createDb.getD entry.createDb
  canLogin := changes.canLogin.getD entry.canLogin
  replication := changes.replication.getD entry.replication
  bypassRls := changes.bypassRls.getD entry.bypassRls
  connectionLimit := changes.connectionLimit.getD entry.connectionLimit
  validUntil := changes.validUntil.getD entry.validUntil

/-- One membership: `member` has been granted `role`. -/
structure RoleMembership where
  role : String
  member : String
  grantor : String
  adminOption : Bool
deriving DecidableEq

/-- The memberships, under role and member. -/
abbrev Memberships := FiniteMap (String × String) RoleMembership

/-- Why a change of the catalog is refused. -/
inductive CatalogError
  | alreadyExists (name : String)
  | notFound (name : String)
  | schemaConflict (message : String)
deriving DecidableEq

/-- Whether an error says that there is no such object. -/
def CatalogError.isNotFound : CatalogError → Bool
  | .notFound _ => true
  | _ => false

/-- The roles, each under its own lower-cased name. -/
structure RoleTable where
  map : FiniteMap String RoleEntry
  named : ∀ k e, map.lookup k = some e → e.name = k
  normal : ∀ k e, map.lookup k = some e → normalizeRoleName k = k

namespace RoleTable

variable (t : RoleTable)

/-- `lookup_role`. -/
def lookupRole (name : String) : Option RoleEntry :=
  t.map.lookup (normalizeRoleName name)

def insert (entry : RoleEntry) : RoleTable where
  map := t.map.insert (normalizeRoleName entry.name)
    { entry with name := normalizeRoleName entry.name }
  named k e h := by
    rw [FiniteMap.lookup_insert_eq] at h
    split_ifs at h with hk
    · rw [hk, ← some.inj h]
    · exact t.named k e h
  normal k e h := by
    rw [FiniteMap.lookup_insert_eq] at h
    split_ifs at h with hk
    · rw [hk, normalizeRoleName_idem]
    · exact t.normal k e h

def modify (name : String) (changes : RoleEntryChanges) : RoleTable where
  map := t.map.modify (normalizeRoleName name) changes.apply
  named k e h := by
    rw [FiniteMap.lookup_modify] at h
    split_ifs at h
    · obtain ⟨e₀, h₀, rfl⟩ := map_eq_some_iff.1 h
      exact t.named k e₀ h₀
    · exact t.named k e h
  normal k e h := by
    rw [FiniteMap.lookup_modify] at h
    split_ifs at h
    · obtain ⟨e₀, h₀, -⟩ := map_eq_some_iff.1 h
      exact t.normal k e₀ h₀
    · exact t.normal k e h

def erase (name : String) : RoleTable where
  map := t.map.erase (normalizeRoleName name)
  named k e h := by
    rw [FiniteMap.lookup_erase_eq] at h
    split_ifs at h
    exact t.named k e h
  normal k e h := by
    rw [FiniteMap.lookup_erase_eq] at h
    split_ifs at h
    exact t.normal k e h

def empty : RoleTable where
  map := ∅
  named k e h := by
    rw [AList.lookup_empty] at h
    cases h
  normal k e h := by
    rw [AList.lookup_empty] at h
    cases h

/-- `list_roles`. -/
def listRoles (t : RoleTable) : List RoleEntry := t.map.values

/-- The map that `install_snapshot` builds. -/
def ofList (roles : List RoleEntry) : RoleTable := roles.foldl insert empty

theorem lookupRole_insert (t : RoleTable) (entry : RoleEntry) (name : String) :
    (t.insert entry).lookupRole name =
      if normalizeRoleName name = normalizeRoleName entry.name then
        some { entry with name := normalizeRoleName entry.name }
      else t.lookupRole name :=
  FiniteMap.lookup_insert_eq ..

theorem lookupRole_modify (t : RoleTable) (changes : RoleEntryChanges) (name other : String) :
    (t.modify name changes).lookupRole other =
      if normalizeRoleName other = normalizeRoleName name then
        (t.lookupRole other).map changes.apply
      else t.lookupRole other :=
  FiniteMap.lookup_modify ..

theorem lookupRole_erase (t : RoleTable) (name other : String) :
    (t.erase name).lookupRole other =
      if normalizeRoleName other = normalizeRoleName name then none else t.lookupRole other :=
  FiniteMap.lookup_erase_eq ..

variable {e : RoleEntry}

theorem mem_listRoles {t : RoleTable} : e ∈ t.listRoles ↔ t.lookupRole e.name = some e := by
  simp only [listRoles, FiniteMap.values, List.mem_map]
  constructor
  · rintro ⟨⟨k, v⟩, hv, rfl⟩
    have hk := AList.mem_lookup_iff.2 hv
    have hname : v.name = k := t.named k v hk
    rw [lookupRole, hname, t.normal k v hk]
    exact hk
  · intro h
    exact ⟨⟨_, e⟩, AList.mem_lookup_iff.1 h, rfl⟩

/-- What is found after some inserts: one of the entries, or what was there if none has the name. -/
theorem lookupRole_foldl_insert (roles : List RoleEntry) (t : RoleTable) (name : String) :
    (∃ e ∈ roles, normalizeRoleName name = normalizeRoleName e.name ∧
      (roles.foldl insert t).lookupRole name =
        some { e with name := normalizeRoleName e.name }) ∨
    (∀ e ∈ roles, normalizeRoleName name ≠ normalizeRoleName e.name) ∧
      (roles.foldl insert t).lookupRole name = t.lookupRole name := by
  induction roles generalizing t with
  | nil => exact .inr ⟨nofun, rfl⟩
  | cons r roles ih =>
    rcases ih (t.insert r) with ⟨e, he, hn, h⟩ | ⟨hall, h⟩
    · exact .inl ⟨e, List.mem_cons_of_mem _ he, hn, h⟩
    · rw [lookupRole_insert] at h
      by_cases hr : normalizeRoleName name = normalizeRoleName r.name
      · rw [if_pos hr] at h
        exact .inl ⟨r, List.mem_cons_self, hr, h⟩
      · rw [if_neg hr] at h
        exact .inr ⟨List.forall_mem_cons.2 ⟨hr, hall⟩, h⟩

/-- Listing the roles and installing the list gives the same lookups. -/
theorem lookupRole_ofList_listRoles (t : RoleTable) (name : String) :
    (ofList t.listRoles).lookupRole name = t.lookupRole name := by
  rcases lookupRole_foldl_insert t.listRoles empty name with ⟨e, he, hn, h⟩ | ⟨hall, h⟩
  · have hlook := mem_listRoles.1 he
    have hname : e.name = normalizeRoleName e.name := t.named _ e hlook
    rw [lookupRole, ← hn] at hlook
    rw [ofList, h, ← hname]
    exact hlook.symm
  · rw [ofList, h]
    refine (eq_none_iff_forall_not_mem.2 fun e he => ?_).symm
    have hname : e.name = normalizeRoleName name := t.named _ e he
    refine hall e (mem_listRoles.2 ?_) ?_
    · rw [lookupRole, hname, normalizeRoleName_idem]
      exact he
    · rw [hname, normalizeRoleName_idem]

/-- The names with SUPERUSER, REPLICATION or BYPASSRLS. -/
def Privileged (t : RoleTable) (name : String) : Prop :=
  ∃ e, t.lookupRole name = some e ∧ e.isPrivileged = true

instance (t : RoleTable) (name : String) : Decidable (t.Privileged name) :=
  decidable_of_iff ((t.lookupRole name).any RoleEntry.isPrivileged = true) (by
    rw [Privileged]
    cases t.lookupRole name <;> simp)

end RoleTable

/-! ## Memberships -/

/-- The search of `membership_path_exists`, whose rounds pop the stack once each; none if it has not
ended after `n` rounds. -/
def membershipWalk (edges : List RoleMembership) (target : String) :
    ℕ → List String → List String → Option Bool
  | _, [], _ => some false
  | 0, _ :: _, _ => none
  | n + 1, member :: stack, seen =>
    if member ∈ seen then membershipWalk edges target n stack seen
    else
      let granted := (edges.filter fun edge => edge.member = member).map (·.role)
      if target ∈ granted then some true
      else membershipWalk edges target n (granted.reverse ++ stack) (member :: seen)

/-- `membership_path_exists`. A membership is pushed once, so there are no more rounds than
memberships and the first one. -/
def membershipPathExists (memberships : Memberships) (startMember targetRole : String) : Bool :=
  (membershipWalk memberships.values targetRole (memberships.values.length + 1)
    [startMember] []).getD false

theorem length_filter_unseen (edges : List RoleMembership) {member : String} {seen : List String}
    (h : member ∉ seen) :
    (edges.filter fun edge => edge.member ∉ seen).length =
      (edges.filter fun edge => edge.member = member).length +
        (edges.filter fun edge => edge.member ∉ member :: seen).length := by
  induction edges with
  | nil => rfl
  | cons edge edges ih =>
    simp only [List.filter_cons]
    by_cases hm : edge.member = member
    · simp [hm, h] at ih ⊢
      omega
    · by_cases hs : edge.member ∈ seen <;> simp [hm, hs] at ih ⊢ <;> omega

/-- `member` has been granted `role`. -/
def Granted (edges : List RoleMembership) (member role : String) : Prop :=
  role ∈ (edges.filter fun edge => edge.member = member).map (·.role)

section

open Relation (TransGen)

variable {edges : List RoleMembership} {target : String} {stack seen : List String} {n : ℕ}

theorem no_path_of_closed
    (h : ∀ a ∈ seen, ∀ b, Granted edges a b → b ≠ target ∧ b ∈ seen) :
    ¬ ∃ a ∈ seen, TransGen (Granted edges) a target := by
  rintro ⟨a, ha, hpath⟩
  induction hpath using TransGen.head_induction_on with
  | single hab => exact (h _ ha _ hab).1 rfl
  | head hab _ ih => exact ih (h _ ha _ hab).2

variable (stack seen) in
/-- What has been seen leads to what has been seen or is on the stack, and there are rounds for all
that may still be pushed. -/
theorem membershipWalk_spec
    (hn : stack.length + (edges.filter fun edge => edge.member ∉ seen).length ≤ n)
    (hseen : ∀ a ∈ seen, ∀ b, Granted edges a b → b ≠ target ∧ b ∈ seen ++ stack) :
    ∃ found, membershipWalk edges target n stack seen = some found ∧
      (found = true ↔ ∃ a ∈ seen ++ stack, TransGen (Granted edges) a target) := by
  induction n generalizing stack seen with
  | zero =>
    cases stack with
    | nil =>
      rw [List.append_nil] at *
      exact ⟨false, by rw [membershipWalk], iff_of_false nofun (no_path_of_closed hseen)⟩
    | cons => simp at hn
  | succ n ih =>
    cases stack with
    | nil =>
      rw [List.append_nil] at *
      exact ⟨false, by rw [membershipWalk], iff_of_false nofun (no_path_of_closed hseen)⟩
    | cons member stack =>
      rw [membershipWalk]
      dsimp only
      split_ifs with hm ht
      · have hmem : ∀ a, a ∈ seen ++ member :: stack ↔ a ∈ seen ++ stack := by grind
        simp only [hmem] at hseen ⊢
        exact ih _ _ (by grind) hseen
      · exact ⟨true, rfl, iff_of_true rfl ⟨member, by simp, .single ht⟩⟩
      · rw [length_filter_unseen edges hm] at hn
        obtain ⟨found, hwalk, hfound⟩ := ih (((edges.filter fun edge =>
          edge.member = member).map (·.role)).reverse ++ stack) (member :: seen)
            (by grind) (by grind [Granted])
        refine ⟨found, hwalk, hfound.trans ⟨?_, ?_⟩⟩
        · rintro ⟨a, ha, hpath⟩
          by_cases hold : a ∈ seen ++ member :: stack
          · exact ⟨a, hold, hpath⟩
          · -- `a` has just been pushed
            exact ⟨member, by simp, .head (b := a) (by grind [Granted]) hpath⟩
        · rintro ⟨a, ha, hpath⟩
          exact ⟨a, by grind, hpath⟩

/-- **The search for a membership path ends and is exact.** More rounds do not change it. -/
theorem membershipPathExists_iff (memberships : Memberships) (startMember targetRole : String) :
    (∀ k, membershipWalk memberships.values targetRole (memberships.values.length + 1 + k)
        [startMember] [] = some (membershipPathExists memberships startMember targetRole)) ∧
    (membershipPathExists memberships startMember targetRole = true ↔
      TransGen (Granted memberships.values) startMember targetRole) := by
  have hspec : ∀ k, ∃ found, membershipWalk memberships.values targetRole
      (memberships.values.length + 1 + k) [startMember] [] = some found ∧
        (found = true ↔ TransGen (Granted memberships.values) startMember targetRole) := by
    intro k
    simpa using membershipWalk_spec [startMember] []
      (n := memberships.values.length + 1 + k) (by simp; omega) (List.forall_mem_nil _)
  obtain ⟨found, hwalk, hfound⟩ := hspec 0
  have hexists : membershipPathExists memberships startMember targetRole = found := by
    rw [membershipPathExists, ← Nat.add_zero (_ + 1), hwalk, getD_some]
  rw [hexists]
  refine ⟨fun k => ?_, hfound⟩
  obtain ⟨found', hwalk', hfound'⟩ := hspec k
  rw [hwalk', Bool.eq_iff_iff.2 (hfound'.trans hfound.symm)]

end

/-- The memberships that the loops of `grant_roles` write, up to the first one that would close a
cycle. -/
def grantMemberships (grantor : String) (adminOption : Bool) :
    List (String × String) → Memberships → Except CatalogError Unit × Memberships
  | [], memberships => (.ok (), memberships)
  | (role, member) :: edges, memberships =>
    if role = member ∨ membershipPathExists memberships role member then
      (.error (.schemaConflict
        ("role membership would create a cycle: " ++ member ++ " -> " ++ role)), memberships)
    else
      grantMemberships grantor adminOption edges
        (memberships.insert (role, member)
          { role, member, grantor := normalizeRoleName grantor, adminOption })

def edgesOf (roles members : List String) : List (String × String) :=
  (roles.map normalizeRoleName).flatMap fun role =>
    (members.map normalizeRoleName).map fun member => (role, member)

/-- The memberships that `install_snapshot` builds. -/
def membershipsOf (memberships : List RoleMembership) : Memberships :=
  memberships.foldl (fun m edge =>
    let edge : RoleMembership := {
      role := normalizeRoleName edge.role
      member := normalizeRoleName edge.member
      grantor := normalizeRoleName edge.grantor
      adminOption := edge.adminOption }
    m.insert (edge.role, edge.member) edge) ∅

/-! ## The catalog -/

/-- `InMemoryAuthCatalog`. -/
structure RoleCatalog where
  roles : RoleTable
  memberships : Memberships

namespace RoleCatalog

variable (c : RoleCatalog)

/-- `lookup_role`. -/
def lookupRole (name : String) : Option RoleEntry := c.roles.lookupRole name

/-- `create_role`. -/
def createRole (entry : RoleEntry) : Except CatalogError Unit × RoleCatalog :=
  match c.lookupRole entry.name with
  | some _ => (.error (.alreadyExists (normalizeRoleName entry.name)), c)
  | none => (.ok (), { c with roles := c.roles.insert entry })

/-- `alter_role`. -/
def alterRole (name : String) (changes : RoleEntryChanges) :
    Except CatalogError Unit × RoleCatalog :=
  match c.lookupRole name with
  | none => (.error (.notFound (normalizeRoleName name)), c)
  | some _ => (.ok (), { c with roles := c.roles.modify name changes })

/-- `drop_role`. -/
def dropRole (name : String) : Except CatalogError Unit × RoleCatalog :=
  if normalizeRoleName name = "ultrasql" then
    (.error (.schemaConflict "cannot drop bootstrap role ultrasql"), c)
  else
    match c.lookupRole name with
    | none => (.error (.notFound (normalizeRoleName name)), c)
    | some _ =>
      (.ok (), {
        roles := c.roles.erase name
        memberships := c.memberships.eraseAll (c.memberships.keys.filter fun edge =>
          edge.1 = normalizeRoleName name ∨ edge.2 = normalizeRoleName name) })

/-- The check of `grant_roles` that every role and member exists. -/
def checkExisting (names : List String) : Except CatalogError Unit :=
  match names.find? fun name => (c.lookupRole name).isNone with
  | some name => .error (.notFound (normalizeRoleName name))
  | none => .ok ()

/-- `revoke_roles`. -/
def revokeRoles (roles members : List String) : RoleCatalog :=
  { c with memberships := c.memberships.eraseAll (edgesOf roles members) }

end RoleCatalog

end UltraSql.Auth

import UltraSql.Auth.RoleCommands

/-!
# Sessions of ordinary users

What the guards of the role commands give a session whose users carry none of the attributes
SUPERUSER, REPLICATION and BYPASSRLS. Everything is relative to the set `S` of names that carry
one of them: `OrdinaryUser` says that these are the privileged names of the catalog, that the
session's users are not among them, and that a user named `tester` has a role. `Keeps` is what
the calls of one session leave intact for the others, and `Safe` is the rule of routines at these
two.

**Theorem (`superuserOf_eq_false`).** An ordinary user is not taken for a superuser.

**Lemmas (`keeps_createRole`, `keeps_alterRole`, `keeps_dropRole`, `keeps_installRoles`).** The
changes of the catalog that the guards let through leave its privileged names as they are.
-/

namespace UltraSql.Auth

open Routine (perform)

/-- The call does not remove the role `tester`. -/
def KeepsTester (c : RoleCatalog) : ∀ ρ, Call ρ → Prop
  | _, .dropRole name => normalizeRoleName name = "tester" → c.lookupRole "tester" = none
  | _, .installRoles roles => c.lookupRole "tester" ≠ none →
      ∃ e ∈ roles, normalizeRoleName e.name = "tester"
  | _, _ => True

instance (c : RoleCatalog) (ρ : Type) (call : Call ρ) : Decidable (KeepsTester c ρ call) :=
  match call with
  | .dropRole _ => inferInstanceAs (Decidable (_ → _))
  | .installRoles _ => inferInstanceAs (Decidable (_ → ∃ _ ∈ _, _))
  | .lookupRole _ | .listRoles | .listMemberships | .createRole _ | .alterRole _ _
  | .checkExisting _ | .grantMemberships _ _ _ | .revokeRoles _ _ | .membershipPathExists _ _
  | .installMemberships _ | .persistRoleMetadata | .objectDependencies _ | .setCurrentUser _ =>
    inferInstanceAs (Decidable True)

/-! ## The invariant -/

variable (S : String → Prop)

/-- The privileged names of the catalog are `S`. -/
def Matches (c : RoleCatalog) : Prop := ∀ name, c.roles.Privileged name ↔ S name

/-- A user who is not in `S`, and who has a role if they are named `tester`. -/
structure Ordinary (c : RoleCatalog) (name : String) : Prop where
  unprivileged : ¬ S name
  tester : normalizeRoleName name = "tester" → c.lookupRole "tester" ≠ none

/-- What one session's calls keep for the others. -/
structure Keeps (c c' : RoleCatalog) : Prop where
  privileged : Matches S c → Matches S c'
  tester : c.lookupRole "tester" ≠ none → c'.lookupRole "tester" ≠ none

/-- What holds of a session. -/
structure OrdinaryUser (c : RoleCatalog) (u : SessionUser) : Prop where
  privileged : Matches S c
  auth : Ordinary S c u.authUser
  current : Ordinary S c u.currentUser

variable {S} {c c' : RoleCatalog} {u : SessionUser} {name : String}

theorem Keeps.refl (c : RoleCatalog) : Keeps S c c := ⟨id, id⟩

theorem Keeps.trans {c₁ c₂ c₃ : RoleCatalog} (h : Keeps S c₁ c₂) (h' : Keeps S c₂ c₃) :
    Keeps S c₁ c₃ :=
  ⟨fun hm => h'.privileged (h.privileged hm), fun ht => h'.tester (h.tester ht)⟩

theorem Ordinary.keeps (h : Ordinary S c name) (hR : Keeps S c c') : Ordinary S c' name :=
  ⟨h.unprivileged, fun hn => hR.tester (h.tester hn)⟩

theorem OrdinaryUser.keeps (h : OrdinaryUser S c u) (hR : Keeps S c c') : OrdinaryUser S c' u :=
  ⟨hR.privileged h.privileged, h.auth.keeps hR, h.current.keeps hR⟩

theorem normalize_tester : normalizeRoleName "tester" = "tester" := by decide

theorem lookupRole_tester (hn : normalizeRoleName name = "tester") :
    c.lookupRole "tester" = c.lookupRole name := by
  rw [RoleCatalog.lookupRole, RoleTable.lookupRole, normalize_tester, ← hn]
  rfl

/-- An ordinary user is not a superuser, whether or not they have a role. -/
theorem superuserOf_eq_false (hm : Matches S c) (h : Ordinary S c name) :
    superuserOf name (c.lookupRole name) = false := by
  cases hr : c.lookupRole name with
  | some role =>
    cases hsuper : role.isSuperuser with
    | false => exact hsuper
    | true =>
      have hp : c.roles.Privileged name := ⟨role, hr, by simp [RoleEntry.isPrivileged, hsuper]⟩
      exact absurd ((hm name).1 hp) h.unprivileged
  | none =>
    simp only [superuserOf, eqIgnoreAsciiCase, decide_eq_false_iff_not]
    intro hn
    rw [normalize_tester] at hn
    exact h.tester hn ((lookupRole_tester hn).trans hr)

/-! ## Changes of the catalog -/

theorem Keeps.of_roles_eq (h : c'.roles = c.roles) : Keeps S c c' := by
  refine ⟨fun hm name => ?_, ?_⟩
  · rw [h]
    exact hm name
  · rw [RoleCatalog.lookupRole, RoleCatalog.lookupRole, h]
    exact id

variable {t : RoleTable}

theorem not_privileged_of_lookup {o : Option RoleEntry} (h : t.lookupRole name = o)
    (ho : ∀ e, o = some e → e.isPrivileged = false) : ¬ t.Privileged name := by
  rintro ⟨e, he, hp⟩
  rw [ho e (h.symm.trans he)] at hp
  cases hp

/-- A change of one role that is not privileged, before or after. -/
theorem keeps_change (hm : Matches S c) (hS : ¬ S name)
    (hself : ∀ other e, normalizeRoleName other = normalizeRoleName name →
      c'.lookupRole other = some e → e.isPrivileged = false)
    (hother : ∀ other, normalizeRoleName other ≠ normalizeRoleName name →
      c'.lookupRole other = c.lookupRole other)
    (htester : normalizeRoleName "tester" = normalizeRoleName name →
      c.lookupRole "tester" ≠ none → c'.lookupRole "tester" ≠ none) : Keeps S c c' := by
  refine ⟨fun _ other => ?_, fun ht => ?_⟩
  · rw [← hm other]
    by_cases hn : normalizeRoleName other = normalizeRoleName name
    · have hold : ¬ c.roles.Privileged other := by
        rw [RoleTable.Privileged, RoleTable.lookupRole, hn]
        exact fun h => hS ((hm name).1 h)
      exact iff_of_false (not_privileged_of_lookup rfl (hself other · hn)) hold
    · have hsame : c'.roles.lookupRole other = c.roles.lookupRole other := hother other hn
      simp only [RoleTable.Privileged, hsame]
  · by_cases hn : normalizeRoleName "tester" = normalizeRoleName name
    · exact htester hn ht
    · rwa [hother _ hn]

theorem keeps_createRole {entry : RoleEntry} (hm : Matches S c)
    (hentry : entry.isPrivileged = false) : Keeps S c (c.createRole entry).2 := by
  unfold RoleCatalog.createRole
  cases hl : c.lookupRole entry.name with
  | some e => exact .refl c
  | none =>
    have hlook := RoleTable.lookupRole_insert c.roles entry
    have hS : ¬ S entry.name := fun h =>
      not_privileged_of_lookup hl (fun e he => by cases he) ((hm _).2 h)
    refine keeps_change hm hS (fun other e hn he => ?_) (fun other hn => (hlook other).trans
      (if_neg hn)) fun hn _ => ((hlook _).trans (if_pos hn)).trans_ne (Option.some_ne_none _)
    cases ((hlook other).trans (if_pos hn)).symm.trans he
    exact hentry

theorem getD_eq_false {o : Option Bool} {b : Bool} (ho : o ≠ some true) (hb : b = false) :
    o.getD b = false := by
  match o with
  | none => exact hb
  | some false => rfl
  | some true => exact absurd rfl ho

variable {changes : RoleEntryChanges}

theorem isPrivileged_apply {e : RoleEntry} (hs : changes.isSuperuser ≠ some true)
    (hr : changes.replication ≠ some true) (hb : changes.bypassRls ≠ some true)
    (he : e.isPrivileged = false) : (changes.apply e).isPrivileged = false := by
  simp only [RoleEntry.isPrivileged, Bool.or_eq_false_iff] at he ⊢
  exact ⟨⟨getD_eq_false hs he.1.1, getD_eq_false hr he.1.2⟩, getD_eq_false hb he.2⟩

theorem keeps_alterRole (hm : Matches S c) (hS : ¬ S name) (hs : changes.isSuperuser ≠ some true)
    (hr : changes.replication ≠ some true) (hb : changes.bypassRls ≠ some true) :
    Keeps S c (c.alterRole name changes).2 := by
  unfold RoleCatalog.alterRole
  cases hl : c.lookupRole name with
  | none => exact .refl c
  | some e₀ =>
    have hlook := RoleTable.lookupRole_modify c.roles changes name
    refine keeps_change hm hS (fun other e hn he => ?_) (fun other hn => (hlook other).trans
      (if_neg hn)) fun hn ht => ?_
    · obtain ⟨e₁, he₁, rfl⟩ := Option.map_eq_some_iff.1
        (((hlook other).trans (if_pos hn)).symm.trans he)
      rw [RoleTable.lookupRole, hn] at he₁
      exact isPrivileged_apply hs hr hb
        (Bool.eq_false_iff.2 fun hp => hS ((hm name).1 ⟨e₁, he₁, hp⟩))
    · rw [RoleCatalog.lookupRole, hlook, if_pos hn]
      simpa [RoleCatalog.lookupRole] using ht

theorem keeps_dropRole (hm : Matches S c) (hS : ¬ S name)
    (htester : KeepsTester c _ (.dropRole name)) : Keeps S c (c.dropRole name).2 := by
  unfold RoleCatalog.dropRole
  split
  · exact .refl c
  · cases hl : c.lookupRole name with
    | none => exact .refl c
    | some e₀ =>
      have hlook := RoleTable.lookupRole_erase c.roles name
      refine keeps_change hm hS (fun other e hn he => ?_) (fun other hn => (hlook other).trans
        (if_neg hn)) fun hn ht => absurd (htester (hn.symm.trans normalize_tester)) ht
      cases ((hlook other).trans (if_pos hn)).symm.trans he

theorem keeps_installRoles {roles : List RoleEntry}
    (hroles : ∀ name, (RoleTable.ofList roles).Privileged name ↔ S name)
    (htester : KeepsTester c _ (.installRoles roles)) :
    Keeps S c { c with roles := RoleTable.ofList roles } := by
  refine ⟨fun _ => hroles, fun ht => ?_⟩
  obtain ⟨e, he, hn⟩ := htester ht
  rcases RoleTable.lookupRole_foldl_insert roles .empty "tester" with ⟨_, -, -, h⟩ | ⟨hall, -⟩
  · exact h.trans_ne (Option.some_ne_none _)
  · exact absurd (normalize_tester.trans hn.symm) (hall e he)

/-! ## Routines of an ordinary session -/

variable (S) in
/-- The routine can go on, leaves the session's users alone, and ends with `Q`. -/
def Safe {τ : Type} (t : RoleRoutine τ) (Q : τ → RoleCatalog → Prop) (c : RoleCatalog)
    (u : SessionUser) : Prop :=
  roleServer.Sat (Keeps S) (OrdinaryUser S) KeepsTester t (fun v c' u' => u' = u ∧ Q v c') c u

variable {τ υ : Type} {t : RoleRoutine τ} {f : τ → RoleRoutine υ} {Q : τ → RoleCatalog → Prop}
  {Q₂ : υ → RoleCatalog → Prop}

theorem Safe.bind (h : Safe S t Q c u) (hf : ∀ v c', Q v c' → Safe S (f v) Q₂ c' u) :
    Safe S (t >>= f) Q₂ c u := by
  refine Server.Sat.bind h fun v c' u' hv => ?_
  obtain ⟨rfl, hQ⟩ := hv
  exact hf v c' hQ

theorem Safe.ret {v : τ} (h : Q v c) : Safe S (pure v) Q c u := ⟨rfl, h⟩

theorem Safe.fail {e : ServerError} : Safe S (Routine.fail e : RoleRoutine τ) Q c u := trivial

variable {call : Call ρ} {g : ρ → RoleRoutine υ} {ρ : Type}

theorem Safe.read (hread : ∀ d c u, (roleServer.exec call d c u).2 = (c, u))
    (h : ∀ d c', Keeps S c c' → OrdinaryUser S c' u →
      Safe S (g (roleServer.exec call d c' u).1) Q₂ c' u) : Safe S (perform call >>= g) Q₂ c u := by
  refine .perform fun c' d hR hA _ => ?_
  rw [hread]
  exact ⟨.refl c', hA, h d c' hR hA⟩

theorem Safe.write (huser : ∀ d c u, (roleServer.exec call d c u).2.2 = u)
    (hkeeps : ∀ d c', OrdinaryUser S c' u → KeepsTester c' _ call →
      Keeps S c' (roleServer.exec call d c' u).2.1) (h : ∀ r c', Safe S (g r) Q₂ c' u) :
    Safe S (perform call >>= g) Q₂ c u := by
  refine .perform fun c' d hR hA hP => ?_
  have hR' := hkeeps d c' hA hP
  rw [huser]
  exact ⟨hR', hA.keeps hR', h _ _⟩

theorem Safe.forEach {α : Type} {g : α → RoleRoutine Unit} {F : α → Prop} {as : List α}
    (h : ∀ a ∈ as, ∀ c, Safe S (g a) (fun _ _ => F a) c u) :
    Safe S (.forEach g as) (fun _ _ => ∀ a ∈ as, F a) c u := by
  refine Server.Sat.forEach (F := fun a _ => F a) (J := fun u' => u' = u) (fun _ _ _ _ h => h) ?_
    rfl
  intro a ha c u' hu
  subst hu
  exact h a ha c

/-! ## Guards -/

theorem safe_roleIsSuperuser (hname : name = u.authUser ∨ name = u.currentUser) :
    Safe S (roleIsSuperuser name) (fun b _ => b = false) c u := by
  refine .read (fun _ _ _ => rfl) fun _ c' _ hA => .ret ?_
  rcases hname with rfl | rfl
  · exact superuserOf_eq_false hA.privileged hA.auth
  · exact superuserOf_eq_false hA.privileged hA.current

theorem safe_lookupRoleIsPrivileged :
    Safe S (lookupRoleIsPrivileged name) (fun b _ => b = false → ¬ S name) c u := by
  refine .read (fun _ _ _ => rfl) fun _ c' _ hA => .ret ?_
  intro hb hS
  obtain ⟨e, he, hp⟩ := (hA.privileged name).2 hS
  have hany : (c'.lookupRole name).any RoleEntry.isPrivileged = true := by
    rw [RoleCatalog.lookupRole, he]
    exact hp
  exact Bool.false_ne_true (hb.symm.trans hany)

theorem safe_ensureRoleAdministration :
    Safe S (ensureRoleAdministration name) (fun _ _ => True) c u := by
  refine .read (fun _ _ _ => rfl) fun _ c' _ _ => ?_
  split
  · split
    · exact .ret trivial
    · exact .fail
  · split
    · exact .ret trivial
    · exact .fail

theorem safe_ensureSuperuserTarget {message : String}
    (hname : name = u.authUser ∨ name = u.currentUser) {target : String} :
    Safe S (ensureSuperuserTarget message name target) (fun _ _ => ¬ S target) c u := by
  refine .bind (safe_roleIsSuperuser hname) fun b c₁ hb => ?_
  subst hb
  refine .bind safe_lookupRoleIsPrivileged fun b c₂ hb => ?_
  cases b with
  | true => exact .fail
  | false => exact .ret (hb rfl)

theorem safe_ensurePrivilegedRoleAttributes (hname : name = u.currentUser)
    {options : LogicalRoleOptions} :
    Safe S (ensurePrivilegedRoleAttributes name options)
      (fun _ _ => roleOptionsGrantPrivilegedAttributes options = false) c u := by
  unfold ensurePrivilegedRoleAttributes
  cases hopt : roleOptionsGrantPrivilegedAttributes options with
  | false => exact .ret rfl
  | true =>
    refine .bind (safe_roleIsSuperuser (.inr hname)) fun b c₁ hb => ?_
    subst hb
    exact .fail

end UltraSql.Auth

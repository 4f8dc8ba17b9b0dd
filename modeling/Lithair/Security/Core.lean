import Lithair.Lib.History
import Mathlib.Data.Finset.Union

/-!
# Security events and the state they build

Users, roles, assignments of roles, sessions and owners of objects, as the state that a sequence of
security events builds, and the permissions a user has in it. The state only keeps what came out of
the events; `mem_getUserPermissions_iff_latest` says it in terms of the events: which role was last
assigned, which one still exists, and what the last effective event of the role granted.
-/

namespace Lithair.Security.Core

open Lib.History

abbrev UserId := UInt32
abbrev RoleId := UInt32
abbrev SessionId := String

structure Role (P : Type*) where
  id : RoleId
  name : String
  permissions : Finset P
  created_at : ℕ
  created_by : UserId

structure User where
  id : UserId
  email : String
  name : String
  password_hash : String
  team_id : Option UInt32
  organization_id : Option UInt32
  created_at : ℕ
  last_login : Option ℕ
  is_active : Bool

structure Session where
  id : SessionId
  user_id : UserId
  created_at : ℕ
  expires_at : ℕ
  last_activity : ℕ
  ip_address : String
  user_agent : String

/-- Who makes a request, and what they may do. -/
structure AuthContext (P : Type*) where
  user_id : UserId
  session_id : SessionId
  permissions : Finset P
  team_id : Option UInt32
  organization_id : Option UInt32

inductive SecurityEvent (P : Type*)
  | userCreated (user_id : UserId) (email name : String) (created_by : UserId) (timestamp : ℕ)
  | userUpdated (user_id : UserId) (email name : String) (updated_by : UserId) (timestamp : ℕ)
  | userDeleted (user_id deleted_by : UserId) (timestamp : ℕ)
  | roleCreated (role_id : RoleId) (name : String) (permissions : List P) (created_by : UserId)
      (timestamp : ℕ)
  | roleUpdated (role_id : RoleId) (name : String) (permissions : List P) (updated_by : UserId)
      (timestamp : ℕ)
  | roleDeleted (role_id : RoleId) (deleted_by : UserId) (timestamp : ℕ)
  | userRoleAssigned (user_id : UserId) (role_id : RoleId) (assigned_by : UserId) (timestamp : ℕ)
  | userRoleRevoked (user_id : UserId) (role_id : RoleId) (revoked_by : UserId) (timestamp : ℕ)
  | userAuthenticated (user_id : UserId) (session_id : SessionId) (ip_address user_agent : String)
      (timestamp : ℕ)
  | userLoggedOut (user_id : UserId) (session_id : SessionId) (timestamp : ℕ)
  | authenticationFailed (email ip_address reason : String) (timestamp : ℕ)
  | accessGranted (user_id : UserId) (resource action : String) (object_id : Option UInt32)
      (timestamp : ℕ)
  | accessDenied (user_id : UserId) (resource action : String) (object_id : Option UInt32)
      (reason : String) (timestamp : ℕ)
  | objectOwnershipAssigned (object_type : String) (object_id : UInt32)
      (owner_id assigned_by : UserId) (timestamp : ℕ)
  | objectOwnershipTransferred (object_type : String) (object_id : UInt32)
      (from_owner to_owner transferred_by : UserId) (timestamp : ℕ)

inductive SecurityError
  | authenticationFailed
  | accessDenied
  | invalidToken
  | sessionExpired
  | userNotFound
  | roleNotFound
  | permissionNotFound
  | invalidCredentials
  deriving DecidableEq

/-- The maps of the state, each from its keys to what is under them. -/
structure SecurityState (P : Type*) where
  users : UserId → Option User
  roles : RoleId → Option (Role P)
  user_roles : UserId → Option (Finset RoleId)
  active_sessions : SessionId → Option Session
  /-- The owners of the objects of a type. -/
  object_ownership : String → Option (UInt32 → Option UserId)

namespace SecurityState

variable {P : Type*}

/-- The empty state. -/
def default : SecurityState P :=
  ⟨fun _ ↦ none, fun _ ↦ none, fun _ ↦ none, fun _ ↦ none, fun _ ↦ none⟩

/-- `users.get_mut(user_id)`, when there is such a user. -/
def modifyUser (state : SecurityState P) (user_id : UserId) (f : User → User) : SecurityState P :=
  { state with users := Function.update state.users user_id ((state.users user_id).map f) }

theorem users_modifyUser (state : SecurityState P) (user user_id : UserId) (f : User → User) :
    (state.modifyUser user f).users user_id =
      (state.users user_id).map (if user = user_id then f else id) := by
  unfold modifyUser
  by_cases huser : user = user_id
  · subst huser
    simp
  · simp [huser, Function.update_of_ne (Ne.symm huser)]

/-- The object gets an owner, in the table of its type, which is made when there is none. -/
def setOwner (state : SecurityState P) (object_type : String) (object_id : UInt32)
    (owner_id : UserId) : SecurityState P :=
  { state with
    object_ownership := Function.update state.object_ownership object_type
      (some (Function.update ((state.object_ownership object_type).getD fun _ ↦ none) object_id
        (some owner_id))) }

variable [DecidableEq P]

def applySecurityEvent (state : SecurityState P) : SecurityEvent P → SecurityState P
  | .userCreated user_id email name _ timestamp =>
    { state with
      users := Function.update state.users user_id (some
        { id := user_id, email := email, name := name, password_hash := "", team_id := none,
          organization_id := none, created_at := timestamp, last_login := none,
          is_active := true }) }
  | .roleCreated role_id name permissions created_by timestamp =>
    { state with
      roles := Function.update state.roles role_id (some
        { id := role_id, name := name, permissions := permissions.toFinset,
          created_at := timestamp, created_by := created_by }) }
  | .userRoleAssigned user_id role_id _ _ =>
    { state with
      user_roles := Function.update state.user_roles user_id
        (some (insert role_id ((state.user_roles user_id).getD ∅))) }
  | .userRoleRevoked user_id role_id _ _ =>
    { state with
      user_roles := Function.update state.user_roles user_id
        ((state.user_roles user_id).map (·.erase role_id)) }
  | .objectOwnershipAssigned object_type object_id owner_id _ _ =>
    state.setOwner object_type object_id owner_id
  | .objectOwnershipTransferred object_type object_id _ to_owner _ _ =>
    state.setOwner object_type object_id to_owner
  | .userUpdated user_id email name _ _ =>
    state.modifyUser user_id fun user ↦ { user with email := email, name := name }
  | .userDeleted user_id _ _ => state.modifyUser user_id fun user ↦ { user with is_active := false }
  | .roleUpdated role_id name permissions _ _ =>
    { state with
      roles := Function.update state.roles role_id ((state.roles role_id).map
        fun role ↦ { role with name := name, permissions := permissions.toFinset }) }
  | .roleDeleted role_id _ _ =>
    -- The role goes from every user it is assigned to.
    { state with
      roles := Function.update state.roles role_id none
      user_roles := fun user_id ↦ (state.user_roles user_id).map (·.erase role_id) }
  | .userAuthenticated user_id _ _ _ timestamp =>
    state.modifyUser user_id fun user ↦ { user with last_login := some timestamp }
  | .userLoggedOut _ session_id _ =>
    { state with active_sessions := Function.update state.active_sessions session_id none }
  | .authenticationFailed _ _ _ _ | .accessGranted _ _ _ _ _ | .accessDenied _ _ _ _ _ _ => state

/-- The state after these events, from the empty one. -/
def applyAll (events : List (SecurityEvent P)) : SecurityState P :=
  events.foldl applySecurityEvent default

/-- The permissions of all the roles of a user. -/
def getUserPermissions (state : SecurityState P) (user_id : UserId) : Finset P :=
  match state.user_roles user_id with
  | some role_ids => role_ids.biUnion fun role_id ↦
      match state.roles role_id with
      | some role => role.permissions
      | none => ∅
  | none => ∅

/-- The user is the owner of the object. -/
def userOwnsObject (state : SecurityState P) (user_id : UserId) (object_type : String)
    (object_id : UInt32) : Bool :=
  (((state.object_ownership object_type).bind fun objects ↦ objects object_id).map
    fun owner_id ↦ owner_id == user_id).getD false

/-- The role is among those assigned to the user. -/
def HasRole (state : SecurityState P) (user_id : UserId) (role_id : RoleId) : Prop :=
  ∃ role_ids, state.user_roles user_id = some role_ids ∧ role_id ∈ role_ids

theorem mem_getUserPermissions {state : SecurityState P} {user_id : UserId} {p : P} :
    p ∈ state.getUserPermissions user_id ↔
      ∃ role_id, state.HasRole user_id role_id ∧
        ∃ role, state.roles role_id = some role ∧ p ∈ role.permissions := by
  unfold getUserPermissions HasRole
  cases hids : state.user_roles user_id with
  | none => simp
  | some role_ids =>
    simp only [Finset.mem_biUnion, Option.some.injEq, exists_eq_left']
    refine exists_congr fun role_id ↦ and_congr_right fun _ ↦ ?_
    cases hrole : state.roles role_id with
    | none => simp
    | some role => simp

end SecurityState

/-! ### What an event says about a role -/

namespace SecurityEvent

variable {P : Type*}

def AssignsRole (user_id : UserId) (role_id : RoleId) : SecurityEvent P → Prop
  | .userRoleAssigned user role _ _ => user = user_id ∧ role = role_id
  | _ => False

def RevokesRole (user_id : UserId) (role_id : RoleId) : SecurityEvent P → Prop
  | .userRoleRevoked user role _ _ => user = user_id ∧ role = role_id
  | _ => False

def CreatesRole (role_id : RoleId) : SecurityEvent P → Prop
  | .roleCreated role _ _ _ _ => role = role_id
  | _ => False

def UpdatesRole (role_id : RoleId) : SecurityEvent P → Prop
  | .roleUpdated role _ _ _ _ => role = role_id
  | _ => False

def DeletesRole (role_id : RoleId) : SecurityEvent P → Prop
  | .roleDeleted role _ _ => role = role_id
  | _ => False

/-- The permission is in the list that the event carries. -/
def Lists (p : P) : SecurityEvent P → Prop
  | .roleCreated _ _ permissions _ _ | .roleUpdated _ _ permissions _ _ => p ∈ permissions
  | _ => False

/-- Who the event makes the owner of the object. -/
def newOwner (object_type : String) (object_id : UInt32) : SecurityEvent P → Option UserId
  | .objectOwnershipAssigned type id owner _ _ | .objectOwnershipTransferred type id _ owner _ _ =>
    if type = object_type ∧ id = object_id then some owner else none
  | _ => none

end SecurityEvent

variable {P : Type*}

/-- The last event about this role of this user is its assignment. -/
def LastAssigned (user_id : UserId) (role_id : RoleId) : List (SecurityEvent P) → Prop :=
  Latest (fun _ e ↦ e.AssignsRole user_id role_id ∨ e.RevokesRole user_id role_id ∨
    e.DeletesRole role_id) fun _ e ↦ e.AssignsRole user_id role_id

/-- The role has been created and not deleted since. -/
def RoleExists (role_id : RoleId) : List (SecurityEvent P) → Prop :=
  Latest (fun _ e ↦ e.CreatesRole role_id ∨ e.DeletesRole role_id) fun _ e ↦ e.CreatesRole role_id

/-- The last creation or effective update of the role lists the permission; an update has an effect
when the role exists. -/
def LastGranted (role_id : RoleId) (p : P) : List (SecurityEvent P) → Prop :=
  Latest (fun before e ↦ e.CreatesRole role_id ∨ e.UpdatesRole role_id ∧ RoleExists role_id before)
    fun _ e ↦ e.Lists p

namespace SecurityState

variable [DecidableEq P]

theorem exists_mem_map_erase {ids : Option (Finset RoleId)} {role role_id : RoleId} :
    (∃ role_ids, ids.map (·.erase role) = some role_ids ∧ role_id ∈ role_ids) ↔
      role ≠ role_id ∧ ∃ role_ids, ids = some role_ids ∧ role_id ∈ role_ids := by
  cases ids with
  | none => simp
  | some role_ids => simp [eq_comm]

/-- What one event makes of the roles of a user. -/
theorem hasRole_applySecurityEvent (state : SecurityState P) (e : SecurityEvent P)
    (user_id : UserId) (role_id : RoleId) :
    (state.applySecurityEvent e).HasRole user_id role_id ↔
      ((e.AssignsRole user_id role_id ∨ e.RevokesRole user_id role_id ∨ e.DeletesRole role_id) ∧
          e.AssignsRole user_id role_id) ∨
        (¬ (e.AssignsRole user_id role_id ∨ e.RevokesRole user_id role_id ∨
          e.DeletesRole role_id) ∧ state.HasRole user_id role_id) := by
  cases e with
  | userRoleAssigned user role _ _ =>
    by_cases huser : user = user_id
    · subst huser
      by_cases hrole : role = role_id
      · simp [applySecurityEvent, HasRole, SecurityEvent.AssignsRole, hrole]
      · cases hids : state.user_roles user with
        | none => simp [applySecurityEvent, HasRole, SecurityEvent.AssignsRole,
            SecurityEvent.RevokesRole, SecurityEvent.DeletesRole, hids, hrole, Ne.symm hrole]
        | some role_ids => simp [applySecurityEvent, HasRole, SecurityEvent.AssignsRole,
            SecurityEvent.RevokesRole, SecurityEvent.DeletesRole, hids, hrole, Ne.symm hrole]
    · simp [applySecurityEvent, HasRole, SecurityEvent.AssignsRole, SecurityEvent.RevokesRole,
        SecurityEvent.DeletesRole, huser, Ne.symm huser]
  | userRoleRevoked user role _ _ =>
    by_cases huser : user = user_id
    · subst huser
      simp only [applySecurityEvent, HasRole, Function.update_self, exists_mem_map_erase]
      simp [SecurityEvent.AssignsRole, SecurityEvent.RevokesRole, SecurityEvent.DeletesRole]
    · simp [applySecurityEvent, HasRole, SecurityEvent.AssignsRole, SecurityEvent.RevokesRole,
        SecurityEvent.DeletesRole, huser, Ne.symm huser]
  | roleDeleted role _ _ =>
    simp only [applySecurityEvent, HasRole, exists_mem_map_erase]
    simp [SecurityEvent.AssignsRole, SecurityEvent.RevokesRole, SecurityEvent.DeletesRole]
  | _ =>
    simp [applySecurityEvent, HasRole, SecurityEvent.AssignsRole, SecurityEvent.RevokesRole,
      SecurityEvent.DeletesRole, modifyUser, setOwner]

/-- What one event makes of there being a role. -/
theorem isSome_roles_applySecurityEvent (state : SecurityState P) (e : SecurityEvent P)
    (role_id : RoleId) :
    ((state.applySecurityEvent e).roles role_id).isSome ↔
      ((e.CreatesRole role_id ∨ e.DeletesRole role_id) ∧ e.CreatesRole role_id) ∨
        (¬ (e.CreatesRole role_id ∨ e.DeletesRole role_id) ∧ (state.roles role_id).isSome) := by
  cases e with
  | roleCreated role _ _ _ _ | roleUpdated role _ _ _ _ | roleDeleted role _ _ =>
    by_cases hrole : role = role_id
    · subst hrole
      simp [applySecurityEvent, SecurityEvent.CreatesRole, SecurityEvent.DeletesRole]
    · simp [applySecurityEvent, SecurityEvent.CreatesRole, SecurityEvent.DeletesRole, hrole,
        Ne.symm hrole]
  | _ =>
    simp [applySecurityEvent, SecurityEvent.CreatesRole, SecurityEvent.DeletesRole, modifyUser,
      setOwner]

/-- What one event makes of the permissions of a role that there is after it: they are what the
event lists, when it creates the role or updates one that was there, and what they were else. -/
theorem mem_permissions_applySecurityEvent {state : SecurityState P} {e : SecurityEvent P}
    {role_id : RoleId} {role : Role P} {p : P}
    (h : (state.applySecurityEvent e).roles role_id = some role) :
    p ∈ role.permissions ↔
      ((e.CreatesRole role_id ∨ e.UpdatesRole role_id ∧ (state.roles role_id).isSome) ∧
          e.Lists p) ∨
        (¬ (e.CreatesRole role_id ∨ e.UpdatesRole role_id ∧ (state.roles role_id).isSome) ∧
          ∃ earlier, state.roles role_id = some earlier ∧ p ∈ earlier.permissions) := by
  cases e with
  | roleCreated other _ _ _ _ =>
    by_cases hrole : other = role_id
    · subst hrole
      simp only [applySecurityEvent, Function.update_self, Option.some.injEq] at h
      subst h
      simp [SecurityEvent.CreatesRole, SecurityEvent.Lists]
    · simp only [applySecurityEvent, Function.update_of_ne (Ne.symm hrole)] at h
      simp [SecurityEvent.CreatesRole, SecurityEvent.UpdatesRole, hrole, h]
  | roleUpdated other _ _ _ _ =>
    by_cases hrole : other = role_id
    · subst hrole
      simp only [applySecurityEvent, Function.update_self, Option.map_eq_some_iff] at h
      obtain ⟨earlier, hearlier, rfl⟩ := h
      simp [SecurityEvent.CreatesRole, SecurityEvent.UpdatesRole, SecurityEvent.Lists, hearlier]
    · simp only [applySecurityEvent, Function.update_of_ne (Ne.symm hrole)] at h
      simp [SecurityEvent.CreatesRole, SecurityEvent.UpdatesRole, hrole, h]
  | roleDeleted other _ _ =>
    by_cases hrole : other = role_id
    · subst hrole
      simp [applySecurityEvent] at h
    · simp only [applySecurityEvent, Function.update_of_ne (Ne.symm hrole)] at h
      simp [SecurityEvent.CreatesRole, SecurityEvent.UpdatesRole, h]
  | _ =>
    have hsame : state.roles role_id = some role := h
    simp [SecurityEvent.CreatesRole, SecurityEvent.UpdatesRole, hsame]

theorem hasRole_applyAll_iff (events : List (SecurityEvent P)) (user_id : UserId)
    (role_id : RoleId) :
    (applyAll events).HasRole user_id role_id ↔ LastAssigned user_id role_id events := by
  refine foldl_iff_latest (P := fun state ↦ HasRole state user_id role_id) ?_ ?_ events
  · simp [HasRole, default]
  · exact fun earlier e ↦ hasRole_applySecurityEvent (applyAll earlier) e user_id role_id

theorem isSome_roles_applyAll_iff (events : List (SecurityEvent P)) (role_id : RoleId) :
    ((applyAll events).roles role_id).isSome ↔ RoleExists role_id events := by
  refine foldl_iff_latest (P := fun state ↦ (SecurityState.roles state role_id).isSome) ?_ ?_ events
  · simp [default]
  · exact fun earlier e ↦ isSome_roles_applySecurityEvent (applyAll earlier) e role_id

theorem mem_permissions_applyAll_iff {events : List (SecurityEvent P)} {role_id : RoleId}
    {role : Role P} (h : (applyAll events).roles role_id = some role) (p : P) :
    p ∈ role.permissions ↔ LastGranted role_id p events := by
  induction events using List.reverseRecOn generalizing role with
  | nil => exact absurd h nofun
  | append_singleton events e ih =>
    have hlast : applyAll (events ++ [e]) = (applyAll events).applySecurityEvent e := by
      unfold applyAll
      rw [List.foldl_append, List.foldl_cons, List.foldl_nil]
    rw [hlast] at h
    rw [LastGranted, latest_concat, mem_permissions_applySecurityEvent h,
      isSome_roles_applyAll_iff]
    refine or_congr Iff.rfl (and_congr_right fun hkind ↦ ?_)
    -- The event was not about what the role grants, so the role was there before it.
    have hsome : ((applyAll events).roles role_id).isSome := by
      have hafter := (isSome_roles_applySecurityEvent (applyAll events) e role_id).mp
        (Option.isSome_of_eq_some h)
      rcases hafter with ⟨-, hcreates⟩ | ⟨-, hbefore⟩
      · exact absurd (Or.inl hcreates) hkind
      · exact hbefore
    obtain ⟨earlier, hearlier⟩ := Option.isSome_iff_exists.mp hsome
    simp [hearlier, ih hearlier, LastGranted]

/-- What one event makes of the owner of an object. -/
theorem owner_applySecurityEvent (state : SecurityState P) (e : SecurityEvent P)
    (object_type : String) (object_id : UInt32) :
    (((state.applySecurityEvent e).object_ownership object_type).bind fun objects ↦
        objects object_id) =
      (e.newOwner object_type object_id).or
        ((state.object_ownership object_type).bind fun objects ↦ objects object_id) := by
  have hset (type : String) (id : UInt32) (owner : UserId) :
      (((state.setOwner type id owner).object_ownership object_type).bind fun objects ↦
          objects object_id) =
        (if type = object_type ∧ id = object_id then some owner else none).or
          ((state.object_ownership object_type).bind fun objects ↦ objects object_id) := by
    unfold setOwner
    by_cases htype : type = object_type
    · subst htype
      by_cases hid : id = object_id
      · subst hid
        simp
      · cases hobjects : state.object_ownership type with
        | none => simp [hid, Function.update_of_ne (Ne.symm hid)]
        | some objects => simp [hid, Function.update_of_ne (Ne.symm hid)]
    · simp [htype, Function.update_of_ne (Ne.symm htype)]
  cases e with
  | objectOwnershipAssigned type id owner _ _ => exact hset type id owner
  | objectOwnershipTransferred type id _ owner _ _ => exact hset type id owner
  | _ => rfl

/-- An object is the user's when the last event that names an owner for it names the user; who it
is taken from does not matter. -/
theorem userOwnsObject_applyAll_iff (events : List (SecurityEvent P)) (user_id : UserId)
    (object_type : String) (object_id : UInt32) :
    (applyAll events).userOwnsObject user_id object_type object_id = true ↔
      Latest (fun _ e ↦ (e.newOwner object_type object_id).isSome)
        (fun _ e ↦ e.newOwner object_type object_id = some user_id) events := by
  refine foldl_iff_latest
    (P := fun state ↦ userOwnsObject state user_id object_type object_id = true) ?_ ?_ events
  · simp [userOwnsObject, default]
  · intro earlier e
    unfold userOwnsObject
    rw [owner_applySecurityEvent]
    cases howner : e.newOwner object_type object_id with
    | none => simp
    | some owner => simp

/-- The permissions of a user, in terms of the events: those that the last creation or effective
update of a role lists which the user was last assigned and which still exists. -/
theorem mem_getUserPermissions_iff_latest (events : List (SecurityEvent P)) (user_id : UserId)
    (p : P) :
    p ∈ (applyAll events).getUserPermissions user_id ↔
      ∃ role_id, LastAssigned user_id role_id events ∧ RoleExists role_id events ∧
        LastGranted role_id p events := by
  rw [mem_getUserPermissions]
  refine exists_congr fun role_id ↦ and_congr (hasRole_applyAll_iff events user_id role_id) ?_
  rw [← isSome_roles_applyAll_iff, Option.isSome_iff_exists]
  constructor
  · rintro ⟨role, hrole, hp⟩
    exact ⟨⟨role, hrole⟩, (mem_permissions_applyAll_iff hrole p).mp hp⟩
  · rintro ⟨⟨role, hrole⟩, hp⟩
    exact ⟨role, hrole, (mem_permissions_applyAll_iff hrole p).mpr hp⟩

end SecurityState
end Lithair.Security.Core

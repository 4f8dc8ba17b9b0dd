import Lithair.App.RouteGuard
import Lithair.App.RoutePatterns

/-!
# What the guard for authentication is for

The paths that `RouteGuard::RequireAuth` leaves out, those that a pattern ending in `/*` takes in,
and what becomes of a request without a session. Exclusions and patterns are compared with the path
as texts, so that one which goes on inside a segment is left out, or taken in, with them; and
without a session store nothing is checked (`scope_not_kept`). On the other paths exclusions and
patterns are for subtrees, and with a session store no request without a session is let through
(`scope_kept`).
-/

namespace Lithair.App.GuardScope

open Lithair.Sessions RoutePatterns RouteGuard

variable {B : Type*}

/-- The path is the top, or goes on behind it with a slash. -/
def InSubtree (top path : String) : Prop :=
  ∃ rest, path.toList = top.toList ++ rest ∧ AtBoundary rest

/-- The path is in the subtree of the excluded one; that of one which ends in a slash is all that
begins with it. -/
def UnderExcluded (excluded path : String) : Prop :=
  InSubtree excluded path ∨
    startsWith path excluded = true ∧ excluded.toList.getLast? = some '/'

/-- The guard lets a request through whatever its headers, and whatever store there is. -/
def Skips (redirectTo : Option String) (exclude : List String) (req : GuardedRequest B) : Prop :=
  ∀ headers store, checkAuth { req with headers := headers } store redirectTo exclude = .ok .allow

theorem startsWith_iff {path start : String} :
    startsWith path start = true ↔ ∃ rest, path.toList = start.toList ++ rest := by
  rw [startsWith, List.isPrefixOf_iff_prefix]
  exact exists_congr fun rest ↦ eq_comm

theorem InSubtree.startsWith {top path : String} (h : InSubtree top path) :
    startsWith path top = true := by
  obtain ⟨rest, hrest, -⟩ := h
  exact startsWith_iff.mpr ⟨rest, hrest⟩

theorem UnderExcluded.startsWith {excluded path : String} (h : UnderExcluded excluded path) :
    startsWith path excluded = true := h.elim InSubtree.startsWith And.left

/-- A request without a session is let through by the exclusions only. -/
theorem checkAuth_of_not_excluded {req : GuardedRequest B} {exclude : List String}
    (h : ¬ Excluded exclude req.path) {state : SessionState}
    (hsession : req.headers.guardToken.bind (PersistentSessionStore.get state) = none)
    (redirectTo : Option String) :
    checkAuth req (some (.persistent state)) redirectTo exclude =
      .ok (.deny (unauthenticated redirectTo)) := by
  unfold checkAuth
  rw [if_neg h]
  simp only [AnySessionStore.downcast, hsession, Option.isSome_none, Bool.false_eq_true, if_false]

theorem skips_iff {redirectTo : Option String} {exclude : List String} {req : GuardedRequest B} :
    Skips redirectTo exclude req ↔ Excluded exclude req.path := by
  constructor
  · intro hskips
    by_contra hnot
    have hnone : req.headers.guardToken.bind (PersistentSessionStore.get ∅) = none :=
      Option.bind_eq_none_iff.mpr fun _ _ ↦ rfl
    have hdenied := checkAuth_of_not_excluded hnot hnone redirectTo
    rw [hskips req.headers] at hdenied
    nomatch Except.ok.inj hdenied
  · intro hexcluded headers store
    exact if_pos hexcluded

theorem matchesPattern_iff {matcher : RouteGuardMatcher B} {front : String}
    (h : matcher.pattern = front ++ "/*") (path : String) :
    matcher.matchesPattern path = true ↔ startsWith path front = true := by
  have hlist : matcher.pattern.toList = front.toList ++ ['/', '*'] := by simp [h]
  have hsuffix : ['/', '*'].isSuffixOf matcher.pattern.toList = true := by
    rw [hlist]
    exact List.isSuffixOf_iff_suffix.mpr (List.suffix_append _ _)
  unfold RouteGuardMatcher.matchesPattern
  simp only [if_pos hsuffix]
  rw [hlist, startsWith]
  simp

/-- On paths that do not go on inside a segment of an excluded path or of a pattern, exclusions and
patterns are for subtrees. A request that is not excluded and has no session is denied by the
persistent store and refused with any other; without a store all requests are let through. -/
theorem scope_kept (redirectTo : Option String) (exclude : List String) (req : GuardedRequest B) :
    ((∀ excluded ∈ exclude, startsWith req.path excluded = true →
        UnderExcluded excluded req.path) →
      (Skips redirectTo exclude req ↔ ∃ excluded ∈ exclude, UnderExcluded excluded req.path)) ∧
    (∀ (matcher : RouteGuardMatcher B) (front : String), matcher.pattern = front ++ "/*" →
      (startsWith req.path front = true → InSubtree front req.path) →
        (matcher.matchesPattern req.path = true ↔ InSubtree front req.path)) ∧
    ((∀ excluded ∈ exclude, startsWith req.path excluded = false) →
      (∀ state, req.headers.guardToken.bind (PersistentSessionStore.get state) = none →
        checkAuth req (some (.persistent state)) redirectTo exclude =
          .ok (.deny (unauthenticated redirectTo))) ∧
      checkAuth req (some .other) redirectTo exclude =
        .error "Failed to downcast session store" ∧
      checkAuth req none redirectTo exclude = .ok .allow) := by
  refine ⟨fun hinside ↦ ?_, fun matcher front hpattern hinside ↦ ?_, fun hnot ↦ ?_⟩
  · rw [skips_iff, Excluded]
    exact exists_congr fun excluded ↦ and_congr_right fun hmem ↦
      ⟨hinside excluded hmem, UnderExcluded.startsWith⟩
  · rw [matchesPattern_iff hpattern]
    exact ⟨hinside, InSubtree.startsWith⟩
  · have hexcluded : ¬ Excluded exclude req.path := by
      rintro ⟨excluded, hmem, hstarts⟩
      exact Bool.false_ne_true ((hnot excluded hmem).symm.trans hstarts)
    refine ⟨fun state hsession ↦ checkAuth_of_not_excluded hexcluded hsession redirectTo, ?_, ?_⟩
    · exact if_neg hexcluded
    · exact if_neg hexcluded

/-- A request without headers. -/
def requestFor (path : String) : GuardedRequest Unit where
  method := .get
  path := path
  headers := ⟨none, none⟩
  rest := ()

theorem scope_kept_admin :
    Skips none ["/admin/login"] (requestFor "/admin/login/step") ∧
      (⟨"/admin/*", none, .requireAuth none []⟩ : RouteGuardMatcher Unit).matchesPattern
        "/admin/users" = true ∧
      checkAuth (requestFor "/admin/users") (some (.persistent ∅)) none ["/admin/login"] =
        .ok (.deny (unauthenticated none)) := by
  have hlogin : InSubtree "/admin/login" "/admin/login/step" := ⟨"/step".toList, rfl, .inr rfl⟩
  have husers : InSubtree "/admin" "/admin/users" := ⟨"/users".toList, rfl, .inr rfl⟩
  refine ⟨?_, ?_, ?_⟩
  · refine ((scope_kept none ["/admin/login"] (requestFor "/admin/login/step")).1 ?_).mpr ?_
    · intro excluded hmem _
      rw [List.mem_singleton.mp hmem]
      exact .inl hlogin
    · exact ⟨"/admin/login", List.mem_cons_self, .inl hlogin⟩
  · exact ((scope_kept none [] (requestFor "/admin/users")).2.1
      ⟨"/admin/*", none, .requireAuth none []⟩ "/admin" rfl fun _ ↦ husers).mpr husers
  · exact ((scope_kept none ["/admin/login"] (requestFor "/admin/users")).2.2 (by decide)).1 ∅ rfl

theorem not_inSubtree {top path rest : String} (hpath : path.toList = top.toList ++ rest.toList)
    (hrest : ¬ AtBoundary rest.toList) : ¬ InSubtree top path := by
  rintro ⟨other, hother, hboundary⟩
  rw [List.append_cancel_left (hpath.symm.trans hother)] at hrest
  exact hrest hboundary

/-- A path that goes on inside a segment is left out with an excluded path, and taken in by a
pattern; and without a session store a request without a token is let through. -/
theorem scope_not_kept :
    (Skips none ["/admin/login"] (requestFor "/admin/login-history") ∧
      ¬ UnderExcluded "/admin/login" "/admin/login-history") ∧
    ((⟨"/admin/*", none, .requireAuth none []⟩ : RouteGuardMatcher Unit).matchesPattern
        "/administrator" = true ∧ ¬ InSubtree "/admin" "/administrator") ∧
    ¬ Excluded [] (requestFor "/admin/users").path ∧
      (requestFor "/admin/users").headers.guardToken = none ∧
      checkAuth (requestFor "/admin/users") none none [] = .ok .allow := by
  have hlogin : ¬ InSubtree "/admin/login" "/admin/login-history" :=
    @not_inSubtree _ _ "-history" rfl (by decide)
  refine ⟨⟨skips_iff.mpr (by decide), ?_⟩, ⟨rfl, ?_⟩, by decide, rfl, rfl⟩
  · rintro (hsubtree | ⟨-, hslash⟩)
    · exact hlogin hsubtree
    · exact absurd hslash (by decide)
  · exact @not_inSubtree _ _ "istrator" rfl (by decide)

end Lithair.App.GuardScope

import Lithair.App.ModelRequest

/-!
# Patterns of paths and custom routes

How `app/mod.rs` matches the pattern of a custom route against the path of a request, and which of
the routes takes a request: the first that matches.
-/

namespace Lithair.App

/-- The pattern without `/**` at its end, if it has that. -/
def stripMultiWildcard (pattern : List Char) : Option (List Char) :=
  if ['/', '*', '*'].isSuffixOf pattern then some (pattern.take (pattern.length - 3)) else none

/-- Segment by segment, where `*` stands for any segment. -/
def segmentsMatch (pattern path : List (List Char)) : Bool :=
  pattern.length == path.length && (pattern.zip path).all fun (p, q) ↦ p == ['*'] || p == q

def pathMatches (pattern path : String) : Bool :=
  let chars := pattern.toList
  if pattern = path then true
  else if '*' ∈ chars then
    match stripMultiWildcard chars with
    | some front => front.isPrefixOf path.toList
    | none =>
      if ['/', '*'].isSuffixOf chars ∧ ¬ ['/', '*', '/'] <:+: chars then
        (chars.take (chars.length - 2)).isPrefixOf path.toList
      else if pattern = "/*" then true
      else segmentsMatch (chars.splitOn '/') (path.toList.splitOn '/')
  else false

/-- A pattern without a wildcard matches itself only. -/
theorem pathMatches_of_plain {pattern : String} (h : '*' ∉ pattern.toList) (path : String) :
    pathMatches pattern path = true ↔ pattern = path := by
  unfold pathMatches
  simp only
  split_ifs with hsame
  · exact iff_of_true rfl hsame
  · exact iff_of_false (by simp) hsame

structure CustomRoute (H : Type*) where
  method : Method
  path : String
  handler : H

/-- The handler of the first route that matches. -/
def findRoute {H : Type*} (routes : List (CustomRoute H)) (method : Method) (path : String) :
    Option H :=
  (routes.find? fun route ↦ decide (route.method = method) && pathMatches route.path path).map
    CustomRoute.handler

theorem mem_of_findRoute {H : Type*} {routes : List (CustomRoute H)} {method : Method}
    {path : String} {handler : H} (h : findRoute routes method path = some handler) :
    ∃ route ∈ routes, route.handler = handler := by
  obtain ⟨route, hroute, rfl⟩ := Option.map_eq_some_iff.mp h
  exact ⟨route, List.mem_of_find?_eq_some hroute, rfl⟩

end Lithair.App

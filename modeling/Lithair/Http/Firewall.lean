import Lithair.Lib.Net

/-!
# The firewall in front of the routes

Lists of addresses that are let through or kept out, the paths they apply to, and limits on the
requests of a second. The entries of the lists are addresses, networks and names of groups of
networks; an entry that is none of these is left out when the lists are compiled.

`listsEnforced_iff` says for which requests the lists do what their configuration says. They do not
for a path that merely begins like an exempt one, for a list of addresses to let through that has no
readable entry, and for an address of the shorter kind in the notation of the longer.
-/

namespace Lithair.Http.Traffic

open Lib.Net Lib.Text

structure FirewallConfig where
  enabled : Bool
  allow : List String
  deny : List String
  global_qps : Option ℕ
  per_ip_qps : Option ℕ
  protected_prefixes : List String
  exempt_prefixes : List String

/-- The second of the last request that was counted, and how many of it were. -/
structure Window where
  second : ℕ
  count : ℕ

/-- What changes with the requests. -/
structure Windows where
  global_win : Window
  per_ip_win : String → Option Window

/-- No request yet. -/
def Windows.default : Windows := ⟨⟨0, 0⟩, fun _ ↦ none⟩

inductive Method
  | options
  | other (name : String)
  deriving DecidableEq

structure Response where
  status : ℕ
  body : String

def jsonError (status : ℕ) (code message : String) : Response :=
  ⟨status, "\x7b\"error\":\"" ++ code ++ "\",\"message\":\"" ++ message ++ "\"\x7d"⟩

/-! ### Lists of addresses -/

inductive IpMatcher
  | exact (addr : IpAddr)
  | net (net : IpNet)

def matchesIp (m : IpMatcher) (addr : IpAddr) : Bool :=
  match m with
  | .exact x => x = addr
  | .net n => n.contains addr

/-- What is used of the reader of networks: a network is an address, a slash and a length. -/
structure NetReader where
  parse : List Char → Option IpNet
  slash_mem : ∀ text net, parse text = some net → '/' ∈ text

/-- The address with these segments. -/
def v6 (a b c d e f g h : UInt16) : Ipv6Addr := ⟨[a, b, c, d, e, f, g, h], rfl⟩

/-- The groups of networks that have a name. -/
def macroNets (name : List Char) : List IpNet :=
  let private_v4 : List IpNet :=
    [.v4 ⟨10, 0, 0, 0⟩ 8, .v4 ⟨172, 16, 0, 0⟩ 12, .v4 ⟨192, 168, 0, 0⟩ 16]
  let n := String.ofList ((trim name).map Char.toLower)
  if n = "private_v4" then private_v4
  else if n ∈ ["private", "internal", "internal_private", "internal_private_ip"] then
    private_v4 ++ [.v6 (v6 0xfc00 0 0 0 0 0 0 0) 7]
  else if n = "loopback" then [.v4 ⟨127, 0, 0, 0⟩ 8, .v6 (v6 0 0 0 0 0 0 0 1) 128]
  else if n = "link_local" then [.v4 ⟨169, 254, 0, 0⟩ 16, .v6 (v6 0xfe80 0 0 0 0 0 0 0) 10]
  else []

section Lists

variable (nets : NetReader)

/-- What an entry of a list stands for; nothing when it cannot be read. -/
def entryMatchers (raw : String) : List IpMatcher :=
  let s := trim raw.toList
  match fromStr s with
  | some addr => [.exact addr]
  | none =>
    match nets.parse s with
    | some net => [.net net]
    | none => (macroNets s).map .net

def compileIpMatchers (list : List String) : List IpMatcher := list.flatMap (entryMatchers nets)

/-- What does not change. -/
structure Firewall where
  cfg : FirewallConfig
  compiled_allow : List IpMatcher
  compiled_deny : List IpMatcher

def Firewall.new (cfg : FirewallConfig) : Firewall :=
  ⟨cfg, compileIpMatchers nets cfg.allow, compileIpMatchers nets cfg.deny⟩

end Lists

def ipToKey (addr : Option IpAddr) : Option String := addr.map fun ip ↦ String.ofList ip.toText

namespace Firewall

variable (fw : Firewall)

def checkIpLists (ip : Option String) : Except Response Unit :=
  match ip with
  | some ip_str =>
    match fromStr ip_str.toList with
    | some addr =>
      if fw.compiled_deny ≠ [] ∧ fw.compiled_deny.any (matchesIp · addr) then
        .error (jsonError 403 "forbidden" ("IP " ++ ip_str ++ " is denied"))
      -- The list counts as configured when one of its entries could be read.
      else if fw.compiled_allow ≠ [] ∧ !fw.compiled_allow.any (matchesIp · addr) then
        .error (jsonError 403 "forbidden" "IP not in allow list")
      else .ok ()
    | none =>
      if fw.compiled_allow ≠ [] then
        .error (jsonError 403 "forbidden" "Unrecognized IP format")
      else .ok ()
  | none =>
    if fw.compiled_allow ≠ [] then .error (jsonError 403 "forbidden" "Unknown IP not allowed")
    else .ok ()

end Firewall

/-! ### Requests of a second -/

/-- A window that is not of this second starts anew. -/
def Window.roll (win : Window) (now : ℕ) : Window := if win.second ≠ now then ⟨now, 0⟩ else win

/-- Whether there is room for one more request in this second, and the window after it. -/
def Window.take (win : Window) (limit now : ℕ) : Bool × Window :=
  if limit ≤ (win.roll now).count then (false, win.roll now)
  else (true, ⟨(win.roll now).second, (win.roll now).count + 1⟩)

namespace Firewall

variable (fw : Firewall)

def checkGlobalQps (windows : Windows) (now : ℕ) : Except Response Unit × Windows :=
  match fw.cfg.global_qps with
  | none => (.ok (), windows)
  | some limit =>
    match windows.global_win.take limit now with
    | (true, win) => (.ok (), { windows with global_win := win })
    | (false, win) =>
      (.error (jsonError 429 "rate_limited" "Global QPS limit exceeded"),
        { windows with global_win := win })

def checkPerIpQps (windows : Windows) (ip : Option String) (now : ℕ) :
    Except Response Unit × Windows :=
  match fw.cfg.per_ip_qps, ip with
  | some limit, some ip =>
    match ((windows.per_ip_win ip).getD ⟨now, 0⟩).take limit now with
    | (true, win) =>
      (.ok (), { windows with per_ip_win := Function.update windows.per_ip_win ip (some win) })
    | (false, win) =>
      (.error (jsonError 429 "ip_rate_limited" "Per-IP QPS limit exceeded"),
        { windows with per_ip_win := Function.update windows.per_ip_win ip (some win) })
  | _, _ => (.ok (), windows)

/-- The path is one that the lists and limits do not apply to. -/
def bypassed (path : List Char) : Bool :=
  fw.cfg.exempt_prefixes.any (fun p ↦ p.toList.isPrefixOf path) ||
    (!fw.cfg.protected_prefixes.isEmpty &&
      !fw.cfg.protected_prefixes.any fun p ↦ p.toList.isPrefixOf path)

/-- The checks of one request; each limit reads the clock for itself. -/
def check (windows : Windows) (remote : Option IpAddr) (method : Method) (path : List Char)
    (now₁ now₂ : ℕ) : Except Response Unit × Windows :=
  if !fw.cfg.enabled || method = .options || fw.bypassed path then (.ok (), windows)
  else
    match fw.checkIpLists (ipToKey remote) with
    | .error response => (.error response, windows)
    | .ok () =>
      match fw.checkGlobalQps windows now₁ with
      | (.error response, windows) => (.error response, windows)
      | (.ok (), windows) => fw.checkPerIpQps windows (ipToKey remote) now₂

end Firewall

/-! ### What the lists let through -/

/-- The path is the prefix or one below it. -/
def UnderPrefix (p path : List Char) : Prop :=
  ∃ rest, path = p ++ rest ∧ (rest = [] ∨ rest.head? = some '/' ∨ p.getLast? = some '/')

namespace FirewallConfig

variable (cfg : FirewallConfig)

def InScope (path : List Char) : Prop :=
  cfg.protected_prefixes = [] ∨ ∃ p ∈ cfg.protected_prefixes, UnderPrefix p.toList path

def Exempt (path : List Char) : Prop := ∃ p ∈ cfg.exempt_prefixes, UnderPrefix p.toList path

/-- The path begins like an exempt one. -/
def BeginsExempt (path : List Char) : Prop := ∃ p ∈ cfg.exempt_prefixes, p.toList <+: path

end FirewallConfig

section Lists

variable (nets : NetReader)

/-- An entry of the list stands for the address. -/
def Listed (list : List String) (addr : IpAddr) : Prop :=
  ∃ raw ∈ list, ∃ m ∈ entryMatchers nets raw, matchesIp m addr = true

/-- An entry of the list can be read. -/
def Readable (list : List String) : Prop := ∃ raw ∈ list, entryMatchers nets raw ≠ []

/-- The lists of a configuration let the address through. -/
def Admits (cfg : FirewallConfig) (addr : IpAddr) : Prop :=
  ¬ Listed nets cfg.deny addr ∧ (cfg.allow ≠ [] → Listed nets cfg.allow addr)

/-- The request comes past the lists: it is not forbidden, whatever the limits say. -/
def PassesLists (fw : Firewall) (remote : IpAddr) (method : Method) (path : List Char) : Prop :=
  ∀ windows now₁ now₂ response,
    (fw.check windows (some remote) method path now₁ now₂).1 = .error response →
      response.status ≠ 403

/-- A request to which the lists apply comes past them exactly when they let its address through,
where an address of the shorter kind may be given in the notation of the longer. -/
def ListsEnforced (cfg : FirewallConfig) (remote : IpAddr) (method : Method) (path : List Char) :
    Prop :=
  cfg.enabled = true → method ≠ .options → cfg.InScope path → ¬ cfg.Exempt path →
    (PassesLists (Firewall.new nets cfg) remote method path ↔ Admits nets cfg remote.toCanonical)

theorem compileIpMatchers_ne_nil {list : List String} :
    compileIpMatchers nets list ≠ [] ↔ Readable nets list := by
  unfold compileIpMatchers Readable
  rw [Ne, List.flatMap_eq_nil_iff]
  push Not
  rfl

theorem any_compileIpMatchers {list : List String} {addr : IpAddr} :
    (compileIpMatchers nets list).any (matchesIp · addr) = true ↔ Listed nets list addr := by
  unfold compileIpMatchers Listed
  rw [List.any_eq_true]
  simp only [List.mem_flatMap]
  constructor
  · rintro ⟨m, ⟨raw, hraw, hm⟩, hmatch⟩
    exact ⟨raw, hraw, m, hm, hmatch⟩
  · rintro ⟨raw, hraw, m, hm, hmatch⟩
    exact ⟨m, ⟨raw, hraw, hm⟩, hmatch⟩

theorem Listed.readable {list : List String} {addr : IpAddr} (h : Listed nets list addr) :
    Readable nets list := by
  obtain ⟨raw, hraw, m, hm, -⟩ := h
  exact ⟨raw, hraw, List.ne_nil_of_mem hm⟩

/-- What the compiled lists say of an address. -/
theorem checkIpLists_eq_ok_iff {cfg : FirewallConfig} {addr : IpAddr} :
    (Firewall.new nets cfg).checkIpLists (ipToKey (some addr)) = .ok () ↔
      ¬ Listed nets cfg.deny addr ∧ (Readable nets cfg.allow → Listed nets cfg.allow addr) := by
  have hread : fromStr (String.ofList addr.toText).toList = some addr := by
    rw [String.toList_ofList, fromStr_toText]
  have hdeny : (compileIpMatchers nets cfg.deny ≠ [] ∧
      (compileIpMatchers nets cfg.deny).any (matchesIp · addr) = true) ↔
        Listed nets cfg.deny addr := by
    rw [compileIpMatchers_ne_nil, any_compileIpMatchers]
    exact and_iff_right_of_imp (Listed.readable nets)
  have hallow : (compileIpMatchers nets cfg.allow ≠ [] ∧
      (!(compileIpMatchers nets cfg.allow).any (matchesIp · addr)) = true) ↔
        ¬ (Readable nets cfg.allow → Listed nets cfg.allow addr) := by
    rw [compileIpMatchers_ne_nil, Bool.not_eq_true', ← Bool.not_eq_true, any_compileIpMatchers]
    push Not
    rfl
  unfold Firewall.checkIpLists ipToKey Firewall.new
  simp only [Option.map_some, hread]
  by_cases hlisted : Listed nets cfg.deny addr
  · rw [if_pos (hdeny.mpr hlisted)]
    exact iff_of_false nofun fun h ↦ h.1 hlisted
  · rw [if_neg (mt hdeny.mp hlisted)]
    by_cases hopen : Readable nets cfg.allow → Listed nets cfg.allow addr
    · rw [if_neg fun h ↦ hallow.mp h hopen]
      exact iff_of_true rfl ⟨hlisted, hopen⟩
    · rw [if_pos (hallow.mpr hopen)]
      exact iff_of_false nofun fun h ↦ hopen h.2

/-- Who is kept out by the lists is told so. -/
theorem status_of_checkIpLists {fw : Firewall} {ip : Option String} {response : Response}
    (h : fw.checkIpLists ip = .error response) : response.status = 403 := by
  unfold Firewall.checkIpLists at h
  split at h
  · split at h
    · split_ifs at h
      · exact (Except.error.inj h) ▸ rfl
      · exact (Except.error.inj h) ▸ rfl
    · split_ifs at h
      exact (Except.error.inj h) ▸ rfl
  · split_ifs at h
    exact (Except.error.inj h) ▸ rfl

theorem status_of_checkGlobalQps {fw : Firewall} {windows : Windows} {now : ℕ}
    {response : Response} (h : (fw.checkGlobalQps windows now).1 = .error response) :
    response.status = 429 := by
  unfold Firewall.checkGlobalQps at h
  split at h
  · exact absurd h nofun
  · split at h
    · exact absurd h nofun
    · exact (Except.error.inj h) ▸ rfl

theorem status_of_checkPerIpQps {fw : Firewall} {windows : Windows} {ip : Option String} {now : ℕ}
    {response : Response} (h : (fw.checkPerIpQps windows ip now).1 = .error response) :
    response.status = 429 := by
  unfold Firewall.checkPerIpQps at h
  split at h
  · split at h
    · exact absurd h nofun
    · exact (Except.error.inj h) ▸ rfl
  · exact absurd h nofun

/-- A request comes past the lists when they are not looked at, or let its address through. -/
theorem passesLists_iff {fw : Firewall} (henabled : fw.cfg.enabled = true) {method : Method}
    (hmethod : method ≠ .options) {remote : IpAddr} {path : List Char} :
    PassesLists fw remote method path ↔
      fw.bypassed path = true ∨ fw.checkIpLists (ipToKey (some remote)) = .ok () := by
  unfold PassesLists Firewall.check
  cases hbypassed : fw.bypassed path with
  | true =>
    simp only [Bool.or_true, if_true, true_or, iff_true]
    exact fun _ _ _ _ h ↦ absurd h nofun
  | false =>
    simp only [henabled, hmethod, Bool.not_true, decide_false, Bool.or_false, Bool.false_eq_true,
      if_false, false_or]
    cases hlists : fw.checkIpLists (ipToKey (some remote)) with
    | error response =>
      refine iff_of_false (fun h ↦ ?_) nofun
      exact h Windows.default 0 0 response rfl (status_of_checkIpLists hlists)
    | ok _ =>
      refine iff_of_true (fun windows now₁ now₂ response h ↦ ?_) rfl
      have hstatus : response.status = 429 := by
        cases hglobal : fw.checkGlobalQps windows now₁ with
        | mk result after =>
          rw [hglobal] at h
          cases result with
          | error denial =>
            obtain rfl := Except.error.inj h
            exact status_of_checkGlobalQps (congrArg Prod.fst hglobal)
          | ok _ => exact status_of_checkPerIpQps h
      rw [hstatus]
      decide

theorem UnderPrefix.isPrefix {p path : List Char} (h : UnderPrefix p path) : p <+: path := by
  obtain ⟨rest, rfl, -⟩ := h
  exact List.prefix_append p rest

/-- On a path in scope only the paths that begin like an exempt one are not looked at. -/
theorem bypassed_iff {fw : Firewall} {path : List Char} (hscope : fw.cfg.InScope path) :
    fw.bypassed path = true ↔ fw.cfg.BeginsExempt path := by
  have hprotected : (!fw.cfg.protected_prefixes.isEmpty &&
      !fw.cfg.protected_prefixes.any fun p ↦ p.toList.isPrefixOf path) = false := by
    rcases hscope with hnil | ⟨p, hp, hunder⟩
    · rw [hnil]
      rfl
    · have hany : (fw.cfg.protected_prefixes.any fun p ↦ p.toList.isPrefixOf path) = true :=
        List.any_eq_true.mpr ⟨p, hp, List.isPrefixOf_iff_prefix.mpr hunder.isPrefix⟩
      rw [hany, Bool.not_true, Bool.and_false]
  unfold Firewall.bypassed FirewallConfig.BeginsExempt
  rw [hprotected, Bool.or_false, List.any_eq_true]
  simp only [List.isPrefixOf_iff_prefix]

/-- For which requests the lists do what their configuration says. -/
def ListsSound (cfg : FirewallConfig) (remote : IpAddr) (path : List Char) : Prop :=
  (cfg.BeginsExempt path → Admits nets cfg remote.toCanonical) ∧
  (¬ cfg.BeginsExempt path →
    (remote.toCanonical = remote →
      cfg.allow = [] ∨ Readable nets cfg.allow ∨ Listed nets cfg.deny remote) ∧
    (remote.toCanonical ≠ remote →
      (Listed nets cfg.deny remote ∨
          Readable nets cfg.allow ∧ ¬ Listed nets cfg.allow remote ↔
        Listed nets cfg.deny remote.toCanonical ∨
          cfg.allow ≠ [] ∧ ¬ Listed nets cfg.allow remote.toCanonical)))

theorem admits_iff_not {cfg : FirewallConfig} {addr : IpAddr} :
    Admits nets cfg addr ↔
      ¬ (Listed nets cfg.deny addr ∨ cfg.allow ≠ [] ∧ ¬ Listed nets cfg.allow addr) := by
  rw [not_or, not_and_not_right]
  rfl

/-- The lists do what their configuration says exactly when a path that merely begins like an exempt
one is asked for from an address that is let through anyway, the addresses to let through are none,
or one of them can be read, or the address is kept out, and an address in the longer notation is
kept out in it exactly when it is to be kept out in the shorter one. -/
theorem listsEnforced_iff (cfg : FirewallConfig) (remote : IpAddr) (method : Method)
    (path : List Char) :
    ListsEnforced nets cfg remote method path ↔
      (cfg.enabled = true → method ≠ .options → cfg.InScope path → ¬ cfg.Exempt path →
        ListsSound nets cfg remote path) := by
  refine forall₄_congr fun henabled hmethod hscope _ ↦ ?_
  have hcfg : (Firewall.new nets cfg).cfg = cfg := rfl
  rw [passesLists_iff (hcfg.symm ▸ henabled) hmethod, bypassed_iff (hcfg.symm ▸ hscope), hcfg,
    checkIpLists_eq_ok_iff]
  unfold ListsSound
  by_cases hexempt : cfg.BeginsExempt path
  · simp [hexempt]
  · simp only [hexempt, false_or, false_imp_iff, true_and, not_false_eq_true, forall_const]
    by_cases hcanonical : remote.toCanonical = remote
    · rw [hcanonical]
      simp only [ne_eq, not_true_eq_false, false_imp_iff, and_true, forall_const]
      unfold Admits
      have hreadable : cfg.allow = [] → ¬ Readable nets cfg.allow := by
        rintro hnil ⟨raw, hraw, -⟩
        rw [hnil] at hraw
        exact absurd hraw List.not_mem_nil
      have hlisted : Listed nets cfg.allow remote → Readable nets cfg.allow := Listed.readable nets
      by_cases hdenied : Listed nets cfg.deny remote
      · simp [hdenied]
      · simp only [hdenied, not_false_eq_true, true_and, or_false]
        by_cases hread : Readable nets cfg.allow
        · have hne : cfg.allow ≠ [] := fun hnil ↦ hreadable hnil hread
          simp [hread, hne]
        · have hnot : ¬ Listed nets cfg.allow remote := mt hlisted hread
          simp [hread, hnot]
    · simp only [hcanonical, false_imp_iff, true_and, ne_eq, not_false_eq_true, forall_const]
      have hkept : ¬ Listed nets cfg.deny remote ∧
          (Readable nets cfg.allow → Listed nets cfg.allow remote) ↔
            ¬ (Listed nets cfg.deny remote ∨
              Readable nets cfg.allow ∧ ¬ Listed nets cfg.allow remote) := by
        rw [not_or, not_and_not_right]
      rw [admits_iff_not, hkept]
      exact not_iff_not

/-- A list of addresses to let through whose only entry cannot be read lets everybody through. -/
theorem not_listsEnforced_unreadable :
    ¬ ∃ nets : NetReader, ∀ (cfg : FirewallConfig) (remote : IpAddr) (method : Method)
      (path : List Char), ListsEnforced nets cfg remote method path := by
  rintro ⟨nets, h⟩
  let cfg : FirewallConfig := ⟨true, ["office"], [], none, none, [], []⟩
  let remote : IpAddr := .v4 ⟨8, 8, 8, 8⟩
  have hentry : entryMatchers nets "office" = [] := by
    have hnet : nets.parse (trim "office".toList) = none := by
      by_contra hsome
      obtain ⟨net, hnet⟩ := Option.ne_none_iff_exists'.mp hsome
      exact absurd (nets.slash_mem _ _ hnet) (by decide)
    have haddr : fromStr (trim "office".toList) = none := by decide
    have hmacro : macroNets (trim "office".toList) = [] := by decide
    unfold entryMatchers
    simp only [haddr, hnet, hmacro, List.map_nil]
  have hlisted : ¬ Listed nets cfg.allow remote := by
    rintro ⟨raw, hraw, m, hm, -⟩
    rw [List.mem_singleton.mp hraw, hentry] at hm
    exact absurd hm List.not_mem_nil
  have hreadable : ¬ Readable nets cfg.allow := by
    rintro ⟨raw, hraw, hne⟩
    rw [List.mem_singleton.mp hraw] at hne
    exact hne hentry
  have hdeny : ¬ Listed nets cfg.deny remote := by
    rintro ⟨raw, hraw, -⟩
    exact absurd hraw List.not_mem_nil
  have hpasses : PassesLists (Firewall.new nets cfg) remote (.other "GET") "/api".toList :=
    (passesLists_iff rfl (by decide)).mpr (Or.inr ((checkIpLists_eq_ok_iff nets).mpr
      ⟨hdeny, fun hread ↦ absurd hread hreadable⟩))
  have hexempt : ¬ cfg.Exempt "/api".toList := by
    rintro ⟨p, hp, -⟩
    exact absurd hp List.not_mem_nil
  have hadmits := (h cfg remote (.other "GET") "/api".toList rfl (by decide) (Or.inl rfl)
    hexempt).mp hpasses
  exact hlisted (hadmits.2 (List.cons_ne_nil _ _))

end Lists
end Lithair.Http.Traffic

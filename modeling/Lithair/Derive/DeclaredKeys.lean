import Lithair.Derive.Items

/-!
# The declared keys of a field

What `parse_field_attributes` makes of the attributes whose items declare something of a field.

A scanner sees one token at a time, so a key never has its value with it (`scan_tokens`): a flag is
on as soon as its key occurs (`get_flag_parsed`), and no key that has to have a value is ever set
(`values_parsed`). Only the default of a field is read, from the text of the whole attribute
(`defaultValue_parsed_iff`). `kept_and_guarded_iff` says for which fields what is parsed is
nevertheless what is declared, and for which models the permissions of their fields guard anything.
-/

namespace Lithair.Derive

open Lithair.Lib.Text

/-! ### What a scanner sees -/

/-- The scanner for the attributes of a kind. -/
def scan : Kind → FieldAttributes → String → FieldAttributes
  | .db => scanDb
  | .lifecycle => scanLifecycle
  | .http => scanHttp
  | .permission => scanPermission
  | .persistence => scanPersistence

/-- What the scanners look for. -/
def marks : List String :=
  ["primary_key", "unique", "indexed", "nullable", "fk", "immutable", "audited", "snapshot_only",
    "versioned", "retention", "expose", "validate", "serialize", "read", "write", "replicate",
    "track_history", "cache", "compact_after", "snapshot_every"]

/-- No scanner looks for this token. -/
def Foreign (token : String) : Prop := ∀ mark ∈ marks, startsWith token mark = false

instance (token : String) : Decidable (Foreign token) :=
  inferInstanceAs (Decidable (∀ mark ∈ marks, startsWith token mark = false))

theorem startsWith_self (token : String) : startsWith token token = true :=
  List.isPrefixOf_iff_prefix.mpr List.prefix_rfl

theorem scan_of_foreign {token : String} (h : Foreign token) (kind : Kind)
    (attrs : FieldAttributes) : scan kind attrs token = attrs := by
  have hne : ∀ mark ∈ marks, token ≠ mark := by
    rintro mark hmark rfl
    exact absurd (startsWith_self token) (Bool.eq_false_iff.mp (h token hmark))
  have hstart : ∀ mark ∈ marks, startsWith token mark = false := h
  simp only [marks, List.forall_mem_cons] at hne hstart
  cases kind <;>
    simp [scan, scanDb, scanLifecycle, scanHttp, scanPermission, scanPersistence, hne, hstart]

theorem head?_dropWhile_mono {first text : List Char} {p : Char → Bool} {c : Char}
    (h : first <+: text) (hfirst : (first.dropWhile p).head? = some c) :
    (text.dropWhile p).head? = some c := by
  obtain ⟨rest, rfl⟩ := h
  have hne : first.dropWhile p ≠ [] := by
    intro hnil
    rw [hnil] at hfirst
    exact absurd hfirst nofun
  rw [List.dropWhile_append, if_neg (by simpa using hne), List.head?_append, hfirst]
  rfl

theorem foreign_literal (literal : Literal) : Foreign literal.token := by
  obtain ⟨c, hc, hopens⟩ := (Option.any_eq_true _ _).mp literal.opens
  rw [Bool.and_eq_true, Bool.not_eq_true'] at hopens
  -- behind the letters before a literal comes none, but in each mark there is one
  have hmarks : ∀ mark ∈ marks,
      (mark.toList.dropWhile (· ∈ literalPrefixes)).head?.any Char.isAlpha = true := by
    decide
  intro mark hmark
  obtain ⟨letter, hletter, halpha⟩ := (Option.any_eq_true _ _).mp (hmarks mark hmark)
  refine Bool.eq_false_iff.mpr fun hstart ↦ ?_
  have hhead := head?_dropWhile_mono (List.isPrefixOf_iff_prefix.mp hstart) hletter
  obtain rfl := Option.some.inj (hhead.symm.trans hc)
  exact absurd halpha (Bool.eq_false_iff.mp hopens.1)

theorem foreign_token (value : ItemValue) : Foreign value.token.toString := by
  cases value with
  | literal written => exact foreign_literal written
  | bool value =>
    cases value with
    | false => exact (by decide : Foreign "false")
    | true => exact (by decide : Foreign "true")

theorem foreign_equals : Foreign (Token.punct '=').toString := by
  decide

theorem foreign_comma : Foreign (Token.punct ',').toString := by
  decide

/-- The tokens of an item are scanned as its key alone: its value is a token of its own. -/
theorem scan_item (kind : Kind) (attrs : FieldAttributes) (item : Item) :
    (item.tokens.map Token.toString).foldl (scan kind) attrs = scan kind attrs item.key.name := by
  obtain ⟨key, value⟩ := item
  cases value with
  | none => rfl
  | some value =>
    show scan kind (scan kind (scan kind attrs key.name) (Token.punct '=').toString)
      value.token.toString = _
    rw [scan_of_foreign (foreign_token value), scan_of_foreign foreign_equals]

theorem scan_separated (kind : Kind) (attrs : FieldAttributes) (items : List Item) :
    ((separated items).map Token.toString).foldl (scan kind) attrs =
      items.foldl (fun attrs item ↦ scan kind attrs item.key.name) attrs := by
  induction items using separated.induct generalizing attrs with
  | case1 => rfl
  | case2 item => exact scan_item kind attrs item
  | case3 item next rest ih =>
    rw [separated, List.map_append, List.map_cons, List.foldl_append, scan_item, List.foldl_cons,
      scan_of_foreign foreign_comma, ih]
    rfl

theorem scan_tokens (kind : Kind) (attrs : FieldAttributes) (list : ItemList) :
    (list.tokens.map Token.toString).foldl (scan kind) attrs =
      list.items.foldl (fun attrs item ↦ scan kind attrs item.key.name) attrs := by
  rw [ItemList.tokens, List.map_append, List.foldl_append, scan_separated]
  cases list.trailingComma with
  | false => rfl
  | true => exact scan_of_foreign foreign_comma kind _

/-- What the name of a key alone says about the exposure of a field. -/
def exposeOfKey (kind : Kind) (name : String) : Option Bool :=
  if kind ≠ .http then none
  else if name = "expose" then some true
  else if startsWith name "expose" && contains name "false" then some false
  else none

/-- A key without its value sets a flag or the exposure, and nothing else. -/
theorem scan_key (kind : Kind) (attrs : FieldAttributes) (key : Key) :
    scan kind attrs key.name =
      match Flag.ofKey kind key.name with
      | some flag => flag.put true attrs
      | none => { attrs with expose := (exposeOfKey kind key.name).getD attrs.expose } := by
  obtain ⟨name, hquote, hequals⟩ := key
  have htext := extractStringValue_eq_none hquote
  have hnumber : ∀ bits, extractUnsigned bits name = none := fun bits ↦
    extractUnsigned_eq_none hequals
  show scan kind attrs name = match Flag.ofKey kind name with | some flag => _ | none => _
  cases hflag : Flag.ofKey kind name with
  | some flag =>
    obtain ⟨rfl, rfl⟩ := Flag.ofKey_eq_some_iff.mp hflag
    cases flag <;> rfl
  | none =>
    have hne : ∀ flag : Flag, flag.kind = kind → name ≠ flag.key := by
      rintro flag hkind rfl
      rw [Flag.ofKey_eq_some_iff.mpr ⟨hkind, rfl⟩] at hflag
      exact absurd hflag nofun
    cases kind with
    | db =>
      have hprimaryKey : name ≠ "primary_key" := hne .primaryKey rfl
      have hunique : name ≠ "unique" := hne .unique rfl
      have hindexed : name ≠ "indexed" := hne .indexed rfl
      have hnullable : name ≠ "nullable" := hne .nullable rfl
      rw [scan, scanDb, if_neg hprimaryKey, if_neg hunique, if_neg hindexed, if_neg hnullable,
        htext, Option.elim_none, ite_self]
      rfl
    | lifecycle =>
      have himmutable : name ≠ "immutable" := hne .immutable rfl
      have haudited : name ≠ "audited" := hne .audited rfl
      have hsnapshot : name ≠ "snapshot_only" := hne .snapshotOnly rfl
      rw [scan, scanLifecycle, if_neg himmutable, if_neg haudited, if_neg hsnapshot,
        extractU32Value, extractUsizeValue, hnumber, hnumber, Option.elim_none, Option.elim_none,
        ite_self, ite_self]
      rfl
    | http =>
      have hkind : ¬Kind.http ≠ Kind.http := not_not_intro rfl
      rw [scan, scanHttp, htext, Option.elim_none, Option.elim_none, ite_self, ite_self,
        exposeOfKey, if_neg hkind]
      split_ifs <;> rfl
    | permission =>
      rw [scan, scanPermission, htext, Option.elim_none, Option.elim_none, ite_self, ite_self]
      rfl
    | persistence =>
      have hreplicate : name ≠ "replicate" := hne .replicate rfl
      have hhistory : name ≠ "track_history" := hne .trackHistory rfl
      have hcache : name ≠ "cache" := hne .cache rfl
      rw [scan, scanPersistence, if_neg hreplicate, if_neg hhistory, if_neg hcache,
        extractU64Value, hnumber, Option.elim_none, Option.elim_none, ite_self, ite_self]
      rfl

/-- What is got from the attributes is left by a scanner, when flags and exposure leave it. -/
theorem get_scan {β : Type} (get : FieldAttributes → β)
    (hflag : ∀ (flag : Flag) value attrs, get (flag.put value attrs) = get attrs)
    (hexpose : ∀ attrs value, get { attrs with expose := value } = get attrs) (kind : Kind)
    (attrs : FieldAttributes) (key : Key) : get (scan kind attrs key.name) = get attrs := by
  rw [scan_key]
  cases Flag.ofKey kind key.name with
  | some flag => exact hflag flag true attrs
  | none => exact hexpose attrs _

theorem get_foldl_scan {β : Type} (get : FieldAttributes → β)
    (hflag : ∀ (flag : Flag) value attrs, get (flag.put value attrs) = get attrs)
    (hexpose : ∀ attrs value, get { attrs with expose := value } = get attrs)
    (kind : Kind) (attrs : FieldAttributes) (items : List Item) :
    get (items.foldl (fun attrs item ↦ scan kind attrs item.key.name) attrs) = get attrs :=
  List.foldlRecOn (motive := fun scanned ↦ get scanned = get attrs) items _ rfl
    fun scanned hscanned item _ ↦ (get_scan get hflag hexpose kind scanned item.key).trans hscanned

/-! ### What is parsed of an attribute -/

section Parsed

variable (tokensText : List Token → String)

/-- The default that the text of an attribute shows. -/
def ItemList.shownDefault (list : ItemList) : Option String :=
  if list.kind = .db then (defaultText (tokensText list.tokens).toList).map String.ofList else none

def FieldAttribute.shownDefault : FieldAttribute → Option String
  | .items list => list.shownDefault tokensText
  | .other _ _ => none

def FieldAttribute.parse (attrs : FieldAttributes) (next : FieldAttribute) : FieldAttributes :=
  parseAttribute tokensText attrs next.attribute

/-- What is parsed of the attributes of a field. -/
def parsed (field : List FieldAttribute) : FieldAttributes :=
  parseFieldAttributes tokensText (field.map FieldAttribute.attribute)

theorem parsed_eq_foldl (field : List FieldAttribute) :
    parsed tokensText field =
      field.foldl (FieldAttribute.parse tokensText) FieldAttributes.initial := by
  rw [parsed, parseFieldAttributes, List.foldl_map]
  rfl

theorem parse_items (attrs : FieldAttributes) (list : ItemList) :
    FieldAttribute.parse tokensText attrs (.items list) =
      let scanned := list.items.foldl (fun attrs item ↦ scan list.kind attrs item.key.name) attrs
      { scanned with defaultValue := list.shownDefault tokensText <|> scanned.defaultValue } := by
  rw [← scan_tokens]
  obtain ⟨kind, items, trailingComma⟩ := list
  cases kind with
  | db =>
    show parseDbAttributes tokensText attrs ⟨some "db", .list _⟩ = _
    unfold parseDbAttributes ItemList.shownDefault
    simp only [if_true]
    cases defaultText (tokensText (ItemList.tokens ⟨.db, items, trailingComma⟩)).toList <;> rfl
  | lifecycle => rfl
  | http => rfl
  | permission => rfl
  | persistence => rfl

theorem parse_other (attrs : FieldAttributes) (attr : Attribute)
    (hother : ∀ kind : Kind, attr.ident ≠ some kind.name) :
    FieldAttribute.parse tokensText attrs (.other attr hother) = parseOther attrs attr := by
  have hdb : attr.ident ≠ some "db" := hother .db
  have hlifecycle : attr.ident ≠ some "lifecycle" := hother .lifecycle
  have hhttp : attr.ident ≠ some "http" := hother .http
  have hpermission : attr.ident ≠ some "permission" := hother .permission
  have hpersistence : attr.ident ≠ some "persistence" := hother .persistence
  show parseAttribute tokensText attrs attr = _
  rw [parseAttribute, if_neg hdb, if_neg hlifecycle, if_neg hhttp, if_neg hpermission,
    if_neg hpersistence, parseOther]

end Parsed

/-! ### Attributes of no kind -/

/-- Attributes with the owner and the relations of others. -/
def FieldAttributes.withRelations (attrs other : FieldAttributes) : FieldAttributes :=
  { attrs with
    foreignKey := other.foreignKey
    ownerField := other.ownerField
    hasMany := other.hasMany
    hasOne := other.hasOne
    belongsTo := other.belongsTo
    cascadeDelete := other.cascadeDelete
    cascadeNull := other.cascadeNull
    relationLazy := other.relationLazy }

/-- A relation between the attributes of two runs that is kept when both run into the same attribute
of no kind. -/
structure KeptByOthers (r : FieldAttributes → FieldAttributes → Prop) : Prop where
  owner : ∀ {first second}, r first second →
    r { first with ownerField := true } { second with ownerField := true }
  cascadeDelete : ∀ {first second}, r first second →
    r { first with cascadeDelete := true } { second with cascadeDelete := true }
  cascadeNull : ∀ {first second}, r first second →
    r { first with cascadeNull := true } { second with cascadeNull := true }
  relationLazy : ∀ {first second}, r first second → ∀ value,
    r { first with relationLazy := value } { second with relationLazy := value }
  foreignKey : ∀ {first second}, r first second → ∀ value,
    r { first with foreignKey := some value } { second with foreignKey := some value }
  hasMany : ∀ {first second}, r first second → ∀ value,
    r { first with hasMany := some value } { second with hasMany := some value }
  hasOne : ∀ {first second}, r first second → ∀ value,
    r { first with hasOne := some value } { second with hasOne := some value }
  belongsTo : ∀ {first second}, r first second → ∀ value,
    r { first with belongsTo := some value } { second with belongsTo := some value }

section Others

variable {r : FieldAttributes → FieldAttributes → Prop} {first second : FieldAttributes}

theorem KeptByOthers.setRelation (hr : KeptByOthers r) (h : r first second)
    (token value : String) :
    r (setRelation first token value) (setRelation second token value) := by
  unfold Derive.setRelation
  cases extractStringValue value with
  | none => exact h
  | some value =>
    show r (if _ then _ else _) (if _ then _ else _)
    split_ifs
    · exact hr.foreignKey h value
    · exact hr.hasMany h value
    · exact hr.hasOne h value
    · exact hr.belongsTo h value

theorem KeptByOthers.scanRelation (hr : KeptByOthers r) (h : r first second)
    (tokens : List String) : r (scanRelation first tokens) (scanRelation second tokens) := by
  fun_induction Derive.scanRelation first tokens generalizing second with
  | case1 => exact h
  | case2 first rest ih =>
    rw [Derive.scanRelation.eq_def second]
    exact ih (hr.cascadeDelete h)
  | case3 first rest _ ih =>
    rw [Derive.scanRelation.eq_def second]
    exact ih (hr.cascadeNull h)
  | case4 first rest _ _ ih =>
    rw [Derive.scanRelation.eq_def second]
    exact ih (hr.relationLazy h true)
  | case5 first rest _ _ _ ih =>
    rw [Derive.scanRelation.eq_def second]
    exact ih (hr.relationLazy h false)
  | case6 first token h₁ h₂ h₃ h₄ hkey value behindValue ih =>
    rw [Derive.scanRelation, if_neg h₁, if_neg h₂, if_neg h₃, if_neg h₄, if_pos hkey, if_pos rfl]
    exact ih (hr.setRelation h token value)
  | case7 first token h₁ h₂ h₃ h₄ hkey eq value behindValue heq ih =>
    rw [Derive.scanRelation, if_neg h₁, if_neg h₂, if_neg h₃, if_neg h₄, if_pos hkey, if_neg heq]
    exact ih h
  | case8 first token h₁ h₂ h₃ h₄ hkey last ih =>
    rw [Derive.scanRelation, if_neg h₁, if_neg h₂, if_neg h₃, if_neg h₄, if_pos hkey]
    exact ih h
  | case9 first token h₁ h₂ h₃ h₄ hkey =>
    rw [Derive.scanRelation, if_neg h₁, if_neg h₂, if_neg h₃, if_neg h₄, if_pos hkey]
    exact h
  | case10 first token rest h₁ h₂ h₃ h₄ hkey ih =>
    rw [Derive.scanRelation.eq_def second]
    simp only [h₁, h₂, h₃, h₄, hkey, if_false]
    exact ih h

theorem KeptByOthers.parseOther (hr : KeptByOthers r) (h : r first second) (attr : Attribute) :
    r (parseOther first attr) (parseOther second attr) := by
  unfold Derive.parseOther
  split_ifs with hrbac hrelation
  · unfold parseRbacAttributes parseTokens
    cases attr.form with
    | list tokens =>
      refine List.foldl_rel h fun token _ first second hnext ↦ ?_
      unfold scanRbac
      split_ifs
      · exact hr.owner hnext
      · exact hnext
    | path => exact h
    | nameValue => exact h
  · unfold parseRelationAttributes
    cases attr.form with
    | list tokens => exact hr.scanRelation h _
    | path => exact h
    | nameValue => exact h
  · exact h

end Others

/-- An attribute of no kind leaves all but relations and owners. -/
theorem parseOther_frame (attrs : FieldAttributes) (attr : Attribute) :
    parseOther attrs attr = attrs.withRelations (parseOther attrs attr) := by
  have hkept : KeptByOthers fun _ second ↦ second = attrs.withRelations second := by
    constructor <;> intro _ second h
    all_goals first | (rw [h]; rfl) | (intro value; rw [h]; rfl)
  exact @KeptByOthers.parseOther _ attrs attrs hkept rfl attr

theorem keptByOthers_foreignKey :
    KeptByOthers fun first second ↦ first.foreignKey = second.foreignKey where
  owner h := h
  cascadeDelete h := h
  cascadeNull h := h
  relationLazy h _ := h
  foreignKey _ _ := rfl
  hasMany h _ := h
  hasOne h _ := h
  belongsTo h _ := h

/-- What the attributes of no kind set, but for the foreign key, which items can declare too. -/
def FieldAttributes.relations (attrs : FieldAttributes) :
    Bool × Option String × Option String × Option String × Bool × Bool × Bool :=
  (attrs.ownerField, attrs.hasMany, attrs.hasOne, attrs.belongsTo, attrs.cascadeDelete,
    attrs.cascadeNull, attrs.relationLazy)

theorem keptByOthers_relations :
    KeptByOthers fun first second ↦ first.relations = second.relations := by
  constructor <;> simp +contextual [FieldAttributes.relations]

/-! ### Over all attributes of a field -/

section Field

variable {β : Type} (get : FieldAttributes → β)

/-- What is got from the attributes of a field is got from one item after the other, when attributes
of no kind leave it. -/
theorem get_foldl {step : FieldAttributes → FieldAttribute → FieldAttributes}
    {effect : β → Kind × Item → β}
    (hitems : ∀ attrs list, get (step attrs (.items list)) =
      (list.items.map (Prod.mk list.kind)).foldl effect (get attrs))
    (hothers : ∀ attrs attr hother, get (step attrs (.other attr hother)) = get attrs)
    (attrs : FieldAttributes) (field : List FieldAttribute) :
    get (field.foldl step attrs) = (entries field).foldl effect (get attrs) := by
  induction field generalizing attrs with
  | nil => rfl
  | cons next field ih =>
    rw [List.foldl_cons, ih, entries, entries, List.flatMap_cons, List.foldl_append]
    cases next with
    | items list => rw [hitems]
    | other attr hother =>
      rw [hothers]
      rfl

variable (tokensText : List Token → String) (field : List FieldAttribute)

theorem get_parsed {effect : β → Kind × Item → β}
    (hscan : ∀ kind attrs item,
      get (scan kind attrs item.key.name) = effect (get attrs) (kind, item))
    (hdefault : ∀ attrs value, get { attrs with defaultValue := value } = get attrs)
    (hothers : ∀ attrs other, get (attrs.withRelations other) = get attrs) :
    get (parsed tokensText field) = (entries field).foldl effect (get FieldAttributes.initial) := by
  rw [parsed_eq_foldl]
  refine get_foldl get (fun attrs list ↦ ?_) (fun attrs attr hother ↦ ?_) _ field
  · rw [parse_items, hdefault, List.foldl_map]
    exact (List.foldl_hom get fun attrs item ↦ (hscan list.kind attrs item).symm).symm
  · rw [parse_other, parseOther_frame, hothers]

theorem get_declared {effect : β → Kind × Item → β}
    (hdeclare : ∀ kind attrs item, get (item.declare kind attrs) = effect (get attrs) (kind, item))
    (hothers : ∀ attrs other, get (attrs.withRelations other) = get attrs) :
    get (declared field) = (entries field).foldl effect (get FieldAttributes.initial) := by
  refine get_foldl get (fun attrs list ↦ ?_) (fun attrs attr hother ↦ ?_) _ field
  · rw [FieldAttribute.declare, List.foldl_map]
    exact (List.foldl_hom get fun attrs item ↦ (hdeclare list.kind attrs item).symm).symm
  · rw [FieldAttribute.declare, parseOther_frame, hothers]

end Field

/-! ### Key by key -/

/-- An item of the field names the flag. -/
def Mentions (field : List FieldAttribute) (flag : Flag) : Prop :=
  ∃ entry ∈ entries field, flag.kind = entry.1 ∧ flag.key = entry.2.key.name

/-- The exposure that the names of the keys give: that of the last one with something to say. -/
def exposeOfKeys (field : List FieldAttribute) : Bool :=
  ((entries field).reverse.findSome? fun entry ↦ exposeOfKey entry.1 entry.2.key.name).getD true

/-- The keys that have to have a value, but for the foreign key and the default. -/
def FieldAttributes.values (attrs : FieldAttributes) :
    ℕ × ℕ × List String × Option String × Option String × Option String × Option ℕ × Option ℕ :=
  (attrs.versioned, attrs.retention, attrs.validation, attrs.serialization, attrs.readPermission,
    attrs.writePermission, attrs.compactAfter, attrs.snapshotEvery)

theorem Flag.values_put (flag : Flag) (value : Bool) (attrs : FieldAttributes) :
    (flag.put value attrs).values = attrs.values := by
  cases flag <;> rfl

theorem Flag.expose_put (flag : Flag) (value : Bool) (attrs : FieldAttributes) :
    (flag.put value attrs).expose = attrs.expose := by
  cases flag <;> rfl

theorem Flag.kind_ne_http (flag : Flag) : flag.kind ≠ .http := by
  cases flag <;> decide

theorem foldl_or {α : Type} (p : α → Bool) (l : List α) (start : Bool) :
    l.foldl (fun b a ↦ b || p a) start = (start || l.any p) := by
  induction l generalizing start with
  | nil => rw [List.foldl_nil, List.any_nil, Bool.or_false]
  | cons a l ih => rw [List.foldl_cons, ih, List.any_cons, Bool.or_assoc]

/-- The last that is found is the first from behind. -/
theorem foldl_orElse {α β : Type} (f : α → Option β) (l : List α) (start : Option β) :
    l.foldl (fun b a ↦ f a <|> b) start = (l.reverse.findSome? f <|> start) := by
  rw [← List.foldr_reverse]
  induction l.reverse with
  | nil => rfl
  | cons a l ih =>
    rw [List.foldr_cons, ih, List.findSome?_cons]
    cases f a <;> rfl

section Keys

variable (tokensText : List Token → String) (field : List FieldAttribute)

theorem get_flag_parsed (flag : Flag) :
    flag.get (parsed tokensText field) = true ↔ Mentions field flag := by
  have hget : flag.get (parsed tokensText field) = (entries field).foldl
      (fun b entry ↦ b || decide (Flag.ofKey entry.1 entry.2.key.name = some flag))
      (flag.get FieldAttributes.initial) := by
    refine get_parsed flag.get tokensText field (fun kind attrs item ↦ ?_) (fun attrs value ↦ ?_)
      fun attrs other ↦ ?_
    · rw [scan_key]
      cases Flag.ofKey kind item.key.name with
      | some other =>
        show flag.get (other.put true attrs) = (flag.get attrs || decide (some other = some flag))
        rw [Flag.get_put]
        by_cases hflag : flag = other
        · rw [if_pos hflag, hflag, decide_eq_true rfl, Bool.or_true]
        · rw [if_neg hflag, decide_eq_false fun h ↦ hflag (Option.some.inj h).symm, Bool.or_false]
      | none =>
        rw [decide_eq_false nofun, Bool.or_false]
        cases flag <;> rfl
    · cases flag <;> rfl
    · cases flag <;> rfl
  have hinitial : flag.get FieldAttributes.initial = false := by
    cases flag <;> rfl
  rw [hget, foldl_or, hinitial, Bool.false_or, List.any_eq_true]
  simp only [decide_eq_true_eq, Flag.ofKey_eq_some_iff, Mentions]

theorem get_flag_declared {flag : Flag} (h : ¬Mentions field flag) :
    flag.get (declared field) = false := by
  have hget : flag.get (declared field) = (entries field).foldl
      (fun b entry ↦ if Flag.ofKey entry.1 entry.2.key.name = some flag then
        entry.2.switch.getD b else b) (flag.get FieldAttributes.initial) := by
    refine get_declared flag.get field (fun kind attrs item ↦ ?_) fun attrs other ↦ ?_
    · cases hflag : Flag.ofKey kind item.key.name with
      | some other =>
        rw [Item.declare, hflag]
        show flag.get (other.put _ attrs) = if some other = some flag then _ else _
        rw [Flag.get_put]
        by_cases hsame : flag = other
        · rw [if_pos hsame, if_pos (congrArg some hsame.symm), hsame]
        · rw [if_neg hsame, if_neg fun h ↦ hsame (Option.some.inj h).symm]
      | none =>
        rw [if_neg nofun, Item.declare, hflag]
        show flag.get (item.declareValue kind attrs) = flag.get attrs
        unfold Item.declareValue
        split <;> cases flag <;> rfl
    · cases flag <;> rfl
  rw [hget]
  refine List.foldlRecOn (motive := fun b ↦ b = false) (entries field) _ ?_ fun b hb entry hmem ↦ ?_
  · cases flag <;> rfl
  · rw [if_neg, hb]
    exact fun hflag ↦ h ⟨entry, hmem, Flag.ofKey_eq_some_iff.mp hflag⟩

theorem values_parsed : (parsed tokensText field).values = FieldAttributes.initial.values := by
  have hget : (parsed tokensText field).values =
      (entries field).foldl (fun b _ ↦ b) FieldAttributes.initial.values :=
    get_parsed FieldAttributes.values tokensText field
      (fun kind attrs item ↦ get_scan _ (fun flag ↦ flag.values_put) (fun _ _ ↦ rfl) kind attrs _)
      (fun _ _ ↦ rfl) fun _ _ ↦ rfl
  rw [hget, List.foldl_fixed]

theorem readPermission_parsed : (parsed tokensText field).readPermission = none := by
  have hvalues := values_parsed tokensText field
  simp only [FieldAttributes.values, Prod.mk.injEq] at hvalues
  exact hvalues.2.2.2.2.1

theorem writePermission_parsed : (parsed tokensText field).writePermission = none := by
  have hvalues := values_parsed tokensText field
  simp only [FieldAttributes.values, Prod.mk.injEq] at hvalues
  exact hvalues.2.2.2.2.2.1

theorem expose_parsed : (parsed tokensText field).expose = exposeOfKeys field := by
  have hget : some (parsed tokensText field).expose = (entries field).foldl
      (fun b entry ↦ exposeOfKey entry.1 entry.2.key.name <|> b) (some true) := by
    refine get_parsed (fun attrs ↦ some attrs.expose) tokensText field
      (fun kind attrs item ↦ ?_) (fun _ _ ↦ rfl) fun _ _ ↦ rfl
    rw [scan_key]
    cases hflag : Flag.ofKey kind item.key.name with
    | some flag =>
      have hkind : kind ≠ .http := (Flag.ofKey_eq_some_iff.mp hflag).1 ▸ flag.kind_ne_http
      show some (flag.put true attrs).expose = (exposeOfKey kind item.key.name <|> _)
      rw [flag.expose_put, exposeOfKey, if_pos hkind]
      rfl
    | none =>
      show some ((exposeOfKey kind item.key.name).getD attrs.expose) =
        (exposeOfKey kind item.key.name <|> some attrs.expose)
      cases exposeOfKey kind item.key.name <;> rfl
  rw [foldl_orElse] at hget
  rw [exposeOfKeys, ← Option.some_inj, hget]
  cases (entries field).reverse.findSome? _ <;> rfl

/-- Of the foreign keys, only those of other attributes are parsed. -/
theorem foreignKey_parsed :
    (parsed tokensText field).foreignKey = (declared (others field)).foreignKey := by
  have hsame : ∀ first second : FieldAttributes, first.foreignKey = second.foreignKey →
      (field.foldl (FieldAttribute.parse tokensText) first).foreignKey =
        ((others field).foldl FieldAttribute.declare second).foreignKey := by
    induction field with
    | nil => exact fun first second h ↦ h
    | cons next field ih =>
      intro first second h
      cases next with
      | items list =>
        refine ih _ second ?_
        rw [parse_items, ← h]
        exact get_foldl_scan FieldAttributes.foreignKey
          (fun flag _ _ ↦ by cases flag <;> rfl) (fun _ _ ↦ rfl) list.kind first list.items
      | other attr hother =>
        refine ih _ (parseOther second attr) ?_
        rw [parse_other]
        exact keptByOthers_foreignKey.parseOther h attr
  rw [parsed_eq_foldl]
  exact hsame _ _ rfl

theorem relations_parsed : (parsed tokensText field).relations = (declared field).relations := by
  rw [parsed_eq_foldl, declared]
  refine List.foldl_rel
    (r := fun first second : FieldAttributes ↦ first.relations = second.relations) rfl
    fun next _ first second h ↦ ?_
  cases next with
  | items list =>
    have hfirst : (FieldAttribute.parse tokensText first (.items list)).relations =
        first.relations := by
      rw [parse_items]
      exact get_foldl_scan FieldAttributes.relations
        (fun flag _ _ ↦ by cases flag <;> rfl) (fun _ _ ↦ rfl) list.kind first list.items
    have hsecond : (FieldAttribute.declare second (.items list)).relations = second.relations := by
      refine List.foldlRecOn
        (motive := fun attrs : FieldAttributes ↦ attrs.relations = second.relations) list.items _
        rfl fun attrs hattrs item _ ↦ ?_
      rw [Item.declare, ← hattrs]
      cases Flag.ofKey list.kind item.key.name with
      | some flag => cases flag <;> rfl
      | none =>
        show (item.declareValue list.kind attrs).relations = attrs.relations
        unfold Item.declareValue
        split <;> rfl
    rw [hfirst, hsecond, h]
  | other attr hother =>
    rw [parse_other]
    exact keptByOthers_relations.parseOther h attr

theorem defaultValue_parsed : (parsed tokensText field).defaultValue =
    field.reverse.findSome? (FieldAttribute.shownDefault tokensText) := by
  have hstep : ∀ attrs next, (FieldAttribute.parse tokensText attrs next).defaultValue =
      (next.shownDefault tokensText <|> attrs.defaultValue) := by
    intro attrs next
    cases next with
    | items list =>
      rw [parse_items]
      show (_ <|> _) = _
      rw [get_foldl_scan FieldAttributes.defaultValue
        (fun flag _ _ ↦ by cases flag <;> rfl) (fun _ _ ↦ rfl)]
      rfl
    | other attr hother =>
      rw [parse_other, parseOther_frame]
      rfl
  have hfold : (parsed tokensText field).defaultValue =
      field.foldl (fun found next ↦ next.shownDefault tokensText <|> found) none := by
    rw [parsed_eq_foldl]
    exact (List.foldl_hom FieldAttributes.defaultValue fun attrs next ↦
      (hstep attrs next).symm).symm
  rw [hfold, foldl_orElse]
  cases field.reverse.findSome? (FieldAttribute.shownDefault tokensText) <;> rfl

end Keys

/-! ### The default in the text of an attribute -/

/-- The first `default` of the text, up to the first equals sign behind it, is `name`, and what
comes then is the value up to a comma, without quotes around it. -/
def Shows (text value : String) : Prop :=
  ∃ before name after, text.toList = before ++ name ++ '=' :: after ∧
    "default".toList <+: name ∧ '=' ∉ name ∧
    (∀ earlier rest, text.toList = earlier ++ rest → "default".toList <+: rest →
      before.length ≤ earlier.length) ∧
    value.toList = trimMatches '"' (trim ((trim after).takeWhile (· != ','))) ∧ value ≠ ""

/-- The last of the attributes of the field that show a default shows this one. -/
def LastShows (tokensText : List Token → String) (field : List FieldAttribute) (value : String) :
    Prop :=
  ∃ before list after, field = before ++ .items list :: after ∧ list.kind = .db ∧
    Shows (tokensText list.tokens) value ∧
    ∀ later, .items later ∈ after → later.kind = .db →
      ∀ other, ¬Shows (tokensText later.tokens) other

theorem prefix_of_prefix_append {mark name rest : List Char} {c : Char} (hc : c ∉ mark)
    (h : mark <+: name ++ c :: rest) : mark <+: name := by
  have hname : name ++ [c] <+: name ++ c :: rest :=
    (List.prefix_append_right_inj name).mpr (List.cons_prefix_cons.mpr ⟨rfl, List.nil_prefix⟩)
  rcases List.prefix_or_prefix_of_prefix h hname with hmark | hmark
  · rcases List.prefix_concat_iff.mp hmark with heq | hmark
    · exact absurd (heq ▸ List.mem_append_right _ List.mem_cons_self) hc
    · exact hmark
  · exact absurd (hmark.subset (List.mem_append_right _ List.mem_cons_self)) hc

theorem shows_iff {text value : String} :
    (defaultText text.toList).map String.ofList = some value ↔ Shows text value := by
  have hequals : '=' ∉ "default".toList := by
    decide
  simp only [defaultText, Option.map_eq_some_iff, Option.bind_eq_some_iff, fromFirst_eq_some_iff,
    behind_eq_some_iff]
  constructor
  · rintro ⟨found, ⟨after, ⟨behindName, ⟨before, htext, hname, hfirst⟩, name, rfl, hnot⟩, hfound⟩,
      rfl⟩
    split_ifs at hfound with hnil
    obtain rfl := Option.some.inj hfound
    refine ⟨before, name, after, ?_, prefix_of_prefix_append hequals hname, hnot, hfirst,
      String.toList_ofList, fun hempty ↦ hnil ?_⟩
    · rw [htext, List.append_assoc]
    · rw [← String.toList_eq_nil_iff, String.toList_ofList] at hempty
      exact hempty
  · rintro ⟨before, name, after, htext, hname, hnot, hfirst, hvalue, hne⟩
    rw [List.append_assoc] at htext
    refine ⟨value.toList, ⟨after, ⟨name ++ '=' :: after, ⟨before, htext,
      hname.trans (List.prefix_append _ _), hfirst⟩, name, rfl, hnot⟩, ?_⟩, String.ofList_toList⟩
    rw [← hvalue, if_neg fun hnil ↦ hne (String.toList_eq_nil_iff.mp hnil)]

theorem shownDefault_iff {tokensText : List Token → String} {next : FieldAttribute}
    {value : String} : next.shownDefault tokensText = some value ↔
      ∃ list, next = .items list ∧ list.kind = .db ∧ Shows (tokensText list.tokens) value := by
  cases next with
  | items list =>
    show list.shownDefault tokensText = some value ↔ _
    rw [ItemList.shownDefault]
    split_ifs with hkind
    · rw [shows_iff]
      constructor
      · exact fun h ↦ ⟨list, rfl, hkind, h⟩
      · rintro ⟨list, hlist, -, h⟩
        obtain rfl := FieldAttribute.items.inj hlist
        exact h
    · constructor
      · exact nofun
      · rintro ⟨list, hlist, hdb, -⟩
        obtain rfl := FieldAttribute.items.inj hlist
        exact absurd hdb hkind
  | other attr hother =>
    constructor
    · exact nofun
    · rintro ⟨list, hlist, -⟩
      exact absurd hlist nofun

theorem defaultValue_parsed_iff {tokensText : List Token → String} {field : List FieldAttribute}
    {value : String} :
    (parsed tokensText field).defaultValue = some value ↔ LastShows tokensText field value := by
  have hnone : ∀ later : ItemList, (FieldAttribute.items later).shownDefault tokensText = none ↔
      (later.kind = .db → ∀ other, ¬Shows (tokensText later.tokens) other) := by
    intro later
    rw [Option.eq_none_iff_forall_ne_some]
    constructor
    · exact fun h hkind other hshows ↦
        h other (shownDefault_iff.mpr ⟨later, rfl, hkind, hshows⟩)
    · intro h other hother
      obtain ⟨list, hlist, hkind, hshows⟩ := shownDefault_iff.mp hother
      obtain rfl := FieldAttribute.items.inj hlist
      exact h hkind other hshows
  rw [defaultValue_parsed, List.findSome?_eq_some_iff]
  constructor
  · rintro ⟨after, next, before, hfield, hnext, hafter⟩
    obtain ⟨list, rfl, hkind, hshows⟩ := shownDefault_iff.mp hnext
    refine ⟨before.reverse, list, after.reverse, ?_, hkind, hshows, fun later hlater ↦ ?_⟩
    · rw [← List.reverse_reverse field, hfield, List.reverse_append, List.reverse_cons,
        List.append_assoc]
      rfl
    · exact (hnone later).mp (hafter _ (List.mem_reverse.mp hlater))
  · rintro ⟨before, list, after, rfl, hkind, hshows, hafter⟩
    refine ⟨after.reverse, .items list, before.reverse, ?_,
      shownDefault_iff.mpr ⟨list, rfl, hkind, hshows⟩, fun next hnext ↦ ?_⟩
    · rw [List.reverse_append, List.reverse_cons, List.append_assoc]
      rfl
    · cases next with
      | items later => exact (hnone later).mpr (hafter later (List.mem_reverse.mp hnext))
      | other attr hother => rfl

/-! ### Fields and models -/

/-- What a field may declare for the parser to come to the same. -/
structure Legible (tokensText : List Token → String) (field : List FieldAttribute) : Prop where
  /-- No flag that is named is declared off. -/
  flags : ∀ flag, Mentions field flag → flag.get (declared field) = true
  /-- The exposure is what the names of the keys give. -/
  expose : exposeOfKeys field = (declared field).expose
  /-- The foreign key is the one that attributes of no kind give. -/
  foreignKey : (declared (others field)).foreignKey = (declared field).foreignKey
  /-- No other key has a value. -/
  values : FieldAttributes.initial.values = (declared field).values
  /-- The default is the last that the text of an attribute shows. -/
  defaultValue : ∀ value,
    LastShows tokensText field value ↔ (declared field).defaultValue = some value

theorem parsed_eq_declared_iff (tokensText : List Token → String) (field : List FieldAttribute) :
    parsed tokensText field = declared field ↔ Legible tokensText field := by
  constructor
  · intro h
    refine ⟨fun flag hflag ↦ ?_, ?_, ?_, ?_, fun value ↦ ?_⟩
    · rw [← h]
      exact (get_flag_parsed tokensText field flag).mpr hflag
    · rw [← h, expose_parsed]
    · rw [← h, foreignKey_parsed]
    · rw [← h, values_parsed]
    · rw [← h, defaultValue_parsed_iff]
  · intro h
    have hflag : ∀ flag : Flag, flag.get (parsed tokensText field) = flag.get (declared field) := by
      intro flag
      by_cases hmentions : Mentions field flag
      · rw [(get_flag_parsed tokensText field flag).mpr hmentions, h.flags flag hmentions]
      · rw [get_flag_declared field hmentions, Bool.eq_false_iff]
        exact fun hget ↦ hmentions ((get_flag_parsed tokensText field flag).mp hget)
    have hrelations := relations_parsed tokensText field
    have hvalues := (values_parsed tokensText field).trans h.values
    simp only [FieldAttributes.relations, Prod.mk.injEq] at hrelations
    simp only [FieldAttributes.values, Prod.mk.injEq] at hvalues
    obtain ⟨howner, hmany, hone, hbelongs, hdelete, hnull, hlazy⟩ := hrelations
    obtain ⟨hversioned, hretention, hvalidation, hserialization, hread, hwrite, hcompact,
      hsnapshot⟩ := hvalues
    have hdefault : (parsed tokensText field).defaultValue = (declared field).defaultValue :=
      Option.ext fun value ↦ defaultValue_parsed_iff.trans (h.defaultValue value)
    exact FieldAttributes.ext (hflag .primaryKey) (hflag .unique) (hflag .indexed)
      ((foreignKey_parsed tokensText field).trans h.foreignKey) (hflag .nullable)
      (hflag .immutable) (hflag .audited) hversioned hretention (hflag .snapshotOnly)
      ((expose_parsed tokensText field).trans h.expose) hvalidation hserialization hread hwrite
      howner hmany hone hbelongs hdelete hnull hlazy (hflag .replicate) (hflag .trackHistory)
      (hflag .cache) hcompact hsnapshot hdefault

/-- Tokens with a space between them. -/
def spaced (tokens : List Token) : String := " ".intercalate (tokens.map Token.toString)

/-- `#[db(unique, default = "draft")]` is read as it is written. -/
example :
    let field : List FieldAttribute := [.items ⟨.db, [⟨⟨"unique", by decide, by decide⟩, none⟩,
      ⟨⟨"default", by decide, by decide⟩,
        some (.literal ⟨"\"draft\"", .text "draft", by decide⟩)⟩], false⟩]
    parsed spaced field = declared field := by
  rfl

/-- A struct whose fields have such attributes. -/
structure Model where
  fields : List (List FieldAttribute)
  publicIf : Option (String × String)

namespace Model

def derived (model : Model) : DerivedModel :=
  ⟨model.fields.map (List.map FieldAttribute.attribute), model.publicIf⟩

/-- The permissions that the fields declare for reading. -/
def readers (model : Model) : List String :=
  model.fields.filterMap fun field ↦ (declared field).readPermission

/-- The permissions that the fields declare for writing. -/
def writers (model : Model) : List String :=
  model.fields.filterMap fun field ↦ (declared field).writePermission

/-- Where permissions to read are declared, `can_read` is for who holds one of them, and for
instances that are public. -/
def ReadGuarded (tokensText : List Token → String) (model : Model) : Prop :=
  model.readers ≠ [] → ∀ self userPermissions,
    model.derived.canRead tokensText self userPermissions = true →
      (∃ perm ∈ model.readers, perm ∈ userPermissions) ∨ model.derived.isPublic self = true

/-- Where permissions to write are declared, `can_write` is for who holds one of them. -/
def WriteGuarded (tokensText : List Token → String) (model : Model) : Prop :=
  model.writers ≠ [] → ∀ userPermissions,
    model.derived.canWrite tokensText userPermissions = true →
      ∃ perm ∈ model.writers, perm ∈ userPermissions

variable (tokensText : List Token → String) (model : Model)

theorem readPerms_derived : model.derived.readPerms tokensText = [] := by
  rw [DerivedModel.readPerms, derived, List.filterMap_map, List.filterMap_eq_nil_iff]
  exact fun field _ ↦ readPermission_parsed tokensText field

theorem writePerms_derived : model.derived.writePerms tokensText = [] := by
  rw [DerivedModel.writePerms, derived, List.filterMap_map, List.filterMap_eq_nil_iff]
  exact fun field _ ↦ writePermission_parsed tokensText field

/-- Without a `public_if` all are allowed to read. -/
theorem canRead_derived (self : String → Option String) (userPermissions : List String) :
    model.derived.canRead tokensText self userPermissions =
      (model.publicIf.isNone || model.derived.isPublic self) := by
  rw [DerivedModel.canRead, readPerms_derived]
  show (if (model.publicIf.isSome || !true) = true then _ || false else true) = _
  rw [Bool.not_true, Bool.or_false, Bool.or_false]
  cases model.publicIf <;> rfl

theorem canWrite_derived (userPermissions : List String) :
    model.derived.canWrite tokensText userPermissions = true := by
  rw [DerivedModel.canWrite, writePerms_derived]
  rfl

theorem readGuarded_iff : model.ReadGuarded tokensText ↔
    model.readers = [] ∨ model.publicIf.isSome = true := by
  constructor
  · intro h
    by_cases hpublic : model.publicIf.isSome = true
    · exact Or.inr hpublic
    · left
      by_contra hreaders
      have hnone : model.publicIf = none := Option.not_isSome_iff_eq_none.mp hpublic
      have hread : model.derived.canRead tokensText (fun _ ↦ none) [] = true := by
        rw [canRead_derived, hnone]
        rfl
      rcases h hreaders (fun _ ↦ none) [] hread with ⟨perm, -, hperm⟩ | hself
      · exact absurd hperm List.not_mem_nil
      · have hany : model.publicIf.any _ = true := hself
        rw [hnone] at hany
        exact absurd hany Bool.false_ne_true
  · rintro (hreaders | hpublic)
    · exact fun hne ↦ absurd hreaders hne
    · intro _ self userPermissions hread
      rw [canRead_derived, Option.isNone_eq_false_iff.mpr hpublic, Bool.false_or] at hread
      exact Or.inr hread

theorem writeGuarded_iff : model.WriteGuarded tokensText ↔ model.writers = [] := by
  constructor
  · intro h
    by_contra hwriters
    obtain ⟨perm, -, hperm⟩ := h hwriters [] (canWrite_derived tokensText model [])
    exact absurd hperm List.not_mem_nil
  · exact fun hwriters hne ↦ absurd hwriters hne

end Model

/-- What is parsed of the fields of a model is what they declare exactly when they are legible, and
the permissions they declare guard the model exactly when there are none, or, for reading, when it
has a `public_if`. -/
theorem kept_and_guarded_iff (tokensText : List Token → String) (model : Model) :
    ((∀ field ∈ model.fields, parsed tokensText field = declared field) ↔
      ∀ field ∈ model.fields, Legible tokensText field) ∧
    (model.ReadGuarded tokensText ↔ model.readers = [] ∨ model.publicIf.isSome = true) ∧
    (model.WriteGuarded tokensText ↔ model.writers = []) :=
  ⟨forall₂_congr fun field _ ↦ parsed_eq_declared_iff tokensText field,
    model.readGuarded_iff tokensText, model.writeGuarded_iff tokensText⟩

def articleRead : Item :=
  ⟨⟨"read", by decide, by decide⟩,
    some (.literal ⟨"\"ArticleRead\"", .text "ArticleRead", by decide⟩)⟩

/-- A model with one field, of which `#[permission(read = "ArticleRead")]` is declared. -/
def article : Model := ⟨[[.items ⟨.permission, [articleRead], false⟩]], none⟩

/-- The permission to read an article is declared and not parsed, and who holds no permission can
read it. -/
theorem article_unguarded :
    article.readers = ["ArticleRead"] ∧
      (¬∀ field ∈ article.fields, parsed spaced field = declared field) ∧
      article.derived.canRead spaced (fun _ ↦ none) [] = true ∧ ¬article.ReadGuarded spaced := by
  have hreaders : article.readers = ["ArticleRead"] := rfl
  have hread : article.derived.canRead spaced (fun _ ↦ none) [] = true :=
    article.canRead_derived spaced (fun _ ↦ none) []
  refine ⟨hreaders, fun h ↦ ?_, hread, fun h ↦ ?_⟩
  · have hpermission := congrArg FieldAttributes.readPermission (h _ List.mem_cons_self)
    rw [readPermission_parsed] at hpermission
    exact absurd hpermission nofun
  · rcases h (hreaders ▸ List.cons_ne_nil _ _) (fun _ ↦ none) [] hread with ⟨perm, -, hperm⟩ | hself
    · exact absurd hperm List.not_mem_nil
    · exact absurd hself Bool.false_ne_true

end Lithair.Derive

import Lithair.App.Routes

/-!
# Patterns of paths, segment by segment

What the pattern of a custom route stands for (`Fits`): `*` for one segment, a last `**` for any
further segments, and every other segment for itself. `path_matches` in `app/mod.rs` compares what
is in front of a wildcard at the end as a text. `pathMatches_iff_fits` says for which patterns and
paths that comes to the same (`Clear`): it does not where the path goes on inside a segment or, for
`/*`, over several segments (`not_fits_api`), nor where a wildcard further in front stands for
something else.
-/

namespace Lithair.App.RoutePatterns

/-- A segment of a path. -/
abbrev Segment := List Char

def segments (path : List Char) : List Segment := path.splitOn '/'

/-! ### What patterns stand for -/

def Segment.Fits (pattern path : Segment) : Prop := pattern = ['*'] ∨ pattern = path

/-- Segments match those of a pattern: each its own, or the first ones those in front of a last
`**`. -/
def Fits (pattern path : List Segment) : Prop :=
  List.Forall₂ Segment.Fits pattern path ∨
    ∃ front first rest, front ≠ [] ∧ pattern = front ++ [['*', '*']] ∧ path = first ++ rest ∧
      List.Forall₂ Segment.Fits front first

/-- Some segment of the pattern is no wildcard, and the path has another in its place. -/
def Differ (pattern path : List Segment) : Prop :=
  ∃ pair ∈ pattern.zip path, pair.1 ≠ ['*'] ∧ pair.1 ≠ pair.2

/-- The last segment is a wildcard. -/
def EndsWild (front : List Char) : Prop := (segments front).getLast? = some ['*']

/-- The text goes on at the end of a segment. -/
def AtBoundary (rest : List Char) : Prop := rest = [] ∨ rest.head? = some '/'

instance (rest : List Char) : Decidable (AtBoundary rest) := inferInstanceAs (Decidable (_ ∨ _))

/-- The patterns and paths for which it is enough to compare texts. A path that begins with what is
in front of `/**` goes on behind a segment; with what is in front of `/*`, by one segment. One that
does not begin so has too few segments (for `/*`, too few or too many), or another segment where the
pattern has no wildcard. -/
structure Clear (pattern path : List Char) : Prop where
  multi : ∀ front, pattern = front ++ ['/', '*', '*'] → pattern ≠ path →
    (∀ rest, path = front ++ rest → AtBoundary rest ∨ EndsWild front) ∧
      (¬ front <+: path → (segments path).length < (segments front).length ∨
        Differ (segments front) (segments path))
  single : ∀ front, pattern = front ++ ['/', '*'] → ¬ ['/', '*', '/'] <:+: pattern →
    pattern ≠ path →
    (∀ rest, path = front ++ rest →
        rest.count '/' = 1 ∧ (rest.head? = some '/' ∨ EndsWild front)) ∧
      (¬ front <+: path → (segments path).length ≠ (segments front).length + 1 ∨
        Differ (segments front) (segments path))

/-! ### Segments of texts -/

theorem segments_cons (c : Char) (text : List Char) :
    segments (c :: text) =
      if c = '/' then [] :: segments text else (segments text).modifyHead (c :: ·) := by
  simp [segments, List.splitOn_cons_eq_if_modifyHead]

theorem length_segments (text : List Char) : (segments text).length = text.count '/' + 1 := by
  induction text with
  | nil => rfl
  | cons c text ih =>
    rw [segments_cons]
    split_ifs with hc
    · rw [List.length_cons, ih, hc, List.count_cons_self]
    · rw [List.length_modifyHead, ih, List.count_cons_of_ne hc]

theorem segments_ne_nil (text : List Char) : segments text ≠ [] := List.splitOn_ne_nil _ _

theorem segments_append_slash (front rest : List Char) :
    segments (front ++ '/' :: rest) = segments front ++ segments rest :=
  List.splitOn_append_cons_self _ _

theorem mem_of_mem_segments {c : Char} {text : List Char} {segment : Segment}
    (hsegment : segment ∈ segments text) (hc : c ∈ segment) : c ∈ text := by
  induction text generalizing segment with
  | nil =>
    obtain rfl := List.mem_singleton.mp hsegment
    exact absurd hc List.not_mem_nil
  | cons d text ih =>
    rw [segments_cons] at hsegment
    split_ifs at hsegment with hd
    · rcases List.mem_cons.mp hsegment with rfl | hsegment
      · exact absurd hc List.not_mem_nil
      · exact List.mem_cons_of_mem d (ih hsegment hc)
    · obtain ⟨first, more, hmore⟩ := List.exists_cons_of_ne_nil (segments_ne_nil text)
      rw [hmore, List.modifyHead_cons] at hsegment
      rcases List.mem_cons.mp hsegment with rfl | hsegment
      · rcases List.mem_cons.mp hc with rfl | hc
        · exact List.mem_cons_self
        · exact List.mem_cons_of_mem d (ih (hmore ▸ List.mem_cons_self) hc)
      · exact List.mem_cons_of_mem d (ih (hmore ▸ List.mem_cons_of_mem first hsegment) hc)

theorem head?_segments (text : List Char) :
    (segments text).head? = some (text.takeWhile (· ≠ '/')) := by
  induction text with
  | nil => rfl
  | cons c text ih =>
    rw [segments_cons]
    split_ifs with hc
    · simp [hc]
    · simp [List.head?_modifyHead, ih, hc]

/-- A text is its segments up to the last slash, and what it goes on with. -/
theorem exists_segments_append (front : List Char) :
    ∃ before last, '/' ∉ last ∧ segments front = before ++ [last] ∧
      ∀ rest, segments (front ++ rest) = before ++ segments (last ++ rest) := by
  induction front with
  | nil => exact ⟨[], [], List.not_mem_nil, rfl, fun _ ↦ rfl⟩
  | cons c front ih =>
    obtain ⟨before, last, hlast, hfront, happend⟩ := ih
    by_cases hc : c = '/'
    · refine ⟨[] :: before, last, hlast, ?_, fun rest ↦ ?_⟩
      · rw [segments_cons, if_pos hc, hfront, List.cons_append]
      · rw [List.cons_append, segments_cons, if_pos hc, happend, List.cons_append]
    · cases before with
      | nil =>
        refine ⟨[], c :: last, ?_, ?_, fun rest ↦ ?_⟩
        · simp [Ne.symm hc, hlast]
        · rw [segments_cons, if_neg hc, hfront]
          rfl
        · rw [List.cons_append, segments_cons, if_neg hc, happend, List.nil_append,
            List.nil_append, List.cons_append, segments_cons, if_neg hc]
      | cons first before =>
        refine ⟨(c :: first) :: before, last, hlast, ?_, fun rest ↦ ?_⟩
        · rw [segments_cons, if_neg hc, hfront]
          rfl
        · rw [List.cons_append, segments_cons, if_neg hc, happend]
          rfl

theorem takeWhile_eq_nil_iff {rest : List Char} :
    rest.takeWhile (· ≠ '/') = [] ↔ AtBoundary rest := by
  unfold AtBoundary
  cases rest with
  | nil => simp
  | cons c rest => simp [List.takeWhile_cons]

/-- A path that begins as the text has the same segments as it, if it goes on behind the last one or
that is a wildcard. -/
theorem not_differ_append_iff (front rest : List Char) :
    ¬ Differ (segments front) (segments (front ++ rest)) ↔ AtBoundary rest ∨ EndsWild front := by
  obtain ⟨before, last, hlast, hfront, happend⟩ := exists_segments_append front
  have hne : ∀ c ∈ last, decide (c ≠ '/') = true :=
    fun c hc ↦ decide_eq_true fun heq ↦ hlast (heq ▸ hc)
  obtain ⟨more, hmore⟩ : ∃ more, segments (last ++ rest) =
      (last ++ rest.takeWhile (· ≠ '/')) :: more := by
    have hhead := head?_segments (last ++ rest)
    rw [List.takeWhile_append_of_pos hne] at hhead
    exact ⟨_, List.eq_cons_of_mem_head? hhead⟩
  have hzip : (before ++ [last]).zip (before ++ (last ++ rest.takeWhile (· ≠ '/')) :: more) =
      before.zip before ++ [(last, last ++ rest.takeWhile (· ≠ '/'))] := by
    rw [List.zip_append rfl]
    rfl
  have hsame : ∀ pair ∈ before.zip before, pair.1 = pair.2 := by
    rintro ⟨a, b⟩ hpair
    have hrefl : List.Forall₂ Eq before before := List.forall₂_same.mpr fun _ _ ↦ rfl
    exact List.forall₂_zip hrefl hpair
  have hwild : EndsWild front ↔ last = ['*'] := by
    rw [EndsWild, hfront, List.getLast?_concat, Option.some_inj]
  have hboundary : last = last ++ rest.takeWhile (· ≠ '/') ↔ AtBoundary rest := by
    rw [List.self_eq_append_right, takeWhile_eq_nil_iff]
  rw [happend, hmore, hfront, Differ, hzip, hwild, ← hboundary]
  constructor
  · intro hsegments
    by_contra hnot
    rw [not_or] at hnot
    exact hsegments ⟨_, List.mem_append_right _ List.mem_cons_self, hnot.2, hnot.1⟩
  · rintro hlast ⟨pair, hpair, hnotWild, hnotSame⟩
    rcases List.mem_append.mp hpair with hpair | hpair
    · exact hnotSame (hsame pair hpair)
    · rw [List.mem_singleton] at hpair
      subst hpair
      exact hlast.elim hnotSame hnotWild

/-! ### What the patterns stand for -/

theorem forall₂_fits_iff {pattern path : List Segment} :
    List.Forall₂ Segment.Fits pattern path ↔
      pattern.length = path.length ∧ ¬ Differ pattern path := by
  rw [List.forall₂_iff_zip]
  refine and_congr_right fun _ ↦ ?_
  constructor
  · rintro hfits ⟨pair, hpair, hwild, hsame⟩
    exact (hfits hpair).elim hwild hsame
  · intro hdiffer a b hpair
    by_contra hnot
    exact hdiffer ⟨(a, b), hpair, fun hwild ↦ hnot (.inl hwild), fun hsame ↦ hnot (.inr hsame)⟩

/-- A pattern that does not end in `/**` has a segment for each one. -/
theorem fits_iff {pattern : List Char} (h : ∀ front, pattern ≠ front ++ ['/', '*', '*'])
    (path : List Segment) :
    Fits (segments pattern) path ↔ List.Forall₂ Segment.Fits (segments pattern) path := by
  refine or_iff_left ?_
  rintro ⟨front, first, rest, hfront, hpattern, -⟩
  have hjoin := @List.intercalate_splitOn _ pattern _ _ '/'
  obtain ⟨before, last, rfl⟩ := (List.eq_nil_or_concat front).resolve_left hfront
  have hpattern : pattern.splitOn '/' = before.concat last ++ [['*', '*']] := hpattern
  rw [hpattern, List.concat_eq_append] at hjoin
  refine h (['/'].intercalate (before ++ [last])) ?_
  rw [← hjoin]
  have hlast : ∀ parts : List Segment, ['/'].intercalate ((parts ++ [last]) ++ [['*', '*']]) =
      ['/'].intercalate (parts ++ [last]) ++ ['/', '*', '*'] := by
    intro parts
    induction parts with
    | nil => simp
    | cons part parts ih =>
      cases parts <;> simp_all
  exact hlast before

/-- What the path has further behind does not count. -/
theorem differ_append {front first : List Segment} (h : front.length = first.length)
    (rest : List Segment) : Differ front (first ++ rest) ↔ Differ front first := by
  have hzip := @List.zip_append _ _ front [] first rest h
  rw [List.append_nil, List.zip_nil_left, List.append_nil] at hzip
  unfold Differ
  rw [hzip]

theorem fits_multi_iff (front : List Char) (path : List Segment) :
    Fits (segments (front ++ ['/', '*', '*'])) path ↔
      (segments front).length ≤ path.length ∧ ¬ Differ (segments front) path := by
  have hsegments : segments (front ++ ['/', '*', '*']) = segments front ++ [['*', '*']] :=
    segments_append_slash front ['*', '*']
  rw [Fits, hsegments]
  constructor
  · intro hfits
    obtain ⟨first, rest, rfl, hfirst⟩ : ∃ first rest, path = first ++ rest ∧
        List.Forall₂ Segment.Fits (segments front) first := by
      rcases hfits with hall | ⟨other, first, rest, -, hother, hpath, hfirst⟩
      · have htake := List.forall₂_take (segments front).length hall
        rw [List.take_left] at htake
        exact ⟨_, _, (List.take_append_drop _ path).symm, htake⟩
      · rw [List.append_cancel_right hother]
        exact ⟨first, rest, hpath, hfirst⟩
    obtain ⟨hlength, hdiffer⟩ := forall₂_fits_iff.mp hfirst
    rw [differ_append hlength, List.length_append]
    exact ⟨by omega, hdiffer⟩
  · rintro ⟨hlength, hdiffer⟩
    have htake : (segments front).length = (path.take (segments front).length).length := by
      rw [List.length_take, Nat.min_eq_left hlength]
    rw [← List.take_append_drop (segments front).length path, differ_append htake] at hdiffer
    exact .inr ⟨segments front, _, _, segments_ne_nil front, rfl,
      (List.take_append_drop _ path).symm, forall₂_fits_iff.mpr ⟨htake, hdiffer⟩⟩

theorem single_ne_multi (front other : List Char) :
    front ++ ['/', '*'] ≠ other ++ ['/', '*', '*'] := by
  intro heq
  have hreverse := congrArg List.reverse heq
  simp at hreverse

theorem fits_single_iff (front : List Char) (path : List Segment) :
    Fits (segments (front ++ ['/', '*'])) path ↔
      path.length = (segments front).length + 1 ∧ ¬ Differ (segments front) path := by
  have hsegments : segments (front ++ ['/', '*']) = segments front ++ [['*']] :=
    segments_append_slash front ['*']
  rw [fits_iff (single_ne_multi front), forall₂_fits_iff, hsegments, List.length_append,
    List.length_singleton, eq_comm]
  refine and_congr_right fun hlength ↦ not_congr ?_
  obtain ⟨first, last, rfl⟩ := (List.eq_nil_or_concat path).resolve_left fun hnil ↦ by
    rw [hnil] at hlength
    exact absurd hlength.symm (Nat.succ_ne_zero _)
  rw [List.concat_eq_append] at hlength ⊢
  rw [List.length_append, List.length_singleton, Nat.add_right_cancel_iff] at hlength
  rw [differ_append hlength.symm]
  unfold Differ
  rw [List.zip_append hlength.symm]
  simp

/-! ### What the code compares -/

theorem stripMultiWildcard_eq_some_iff {pattern front : List Char} :
    stripMultiWildcard pattern = some front ↔ pattern = front ++ ['/', '*', '*'] := by
  unfold stripMultiWildcard
  constructor
  · intro h
    split_ifs at h with hsuffix
    obtain ⟨other, rfl⟩ := List.isSuffixOf_iff_suffix.mp hsuffix
    rw [← Option.some.inj h]
    simp
  · rintro rfl
    rw [if_pos (List.isSuffixOf_iff_suffix.mpr (List.suffix_append _ _))]
    simp

theorem segmentsMatch_iff {pattern path : List Segment} :
    segmentsMatch pattern path = true ↔ List.Forall₂ Segment.Fits pattern path := by
  rw [forall₂_fits_iff, segmentsMatch, Bool.and_eq_true, beq_iff_eq, List.all_eq_true]
  refine and_congr_right fun _ ↦ ?_
  simp only [Differ, Bool.or_eq_true, beq_iff_eq, not_exists, not_and, not_not]
  exact ⟨fun h pair hpair hwild ↦ (h pair hpair).resolve_left hwild,
    fun h pair hpair ↦ or_iff_not_imp_left.mpr (h pair hpair)⟩

variable {pattern path : String} (hne : pattern ≠ path)

include hne

theorem pathMatches_multi {front : List Char} (h : pattern.toList = front ++ ['/', '*', '*']) :
    pathMatches pattern path = true ↔ front <+: path.toList := by
  have hstar : '*' ∈ pattern.toList := by simp [h]
  unfold pathMatches
  simp only [if_neg hne, if_pos hstar, stripMultiWildcard_eq_some_iff.mpr h]
  exact List.isPrefixOf_iff_prefix

theorem pathMatches_single {front : List Char} (h : pattern.toList = front ++ ['/', '*'])
    (hinside : ¬ ['/', '*', '/'] <:+: pattern.toList) :
    pathMatches pattern path = true ↔ front <+: path.toList := by
  have hstar : '*' ∈ pattern.toList := by simp [h]
  have hstrip : stripMultiWildcard pattern.toList = none := by
    rw [Option.eq_none_iff_forall_ne_some]
    intro other hother
    exact single_ne_multi front other (h.symm.trans (stripMultiWildcard_eq_some_iff.mp hother))
  have hsuffix : ['/', '*'].isSuffixOf pattern.toList = true ∧
      ¬ ['/', '*', '/'] <:+: pattern.toList := by
    refine ⟨?_, hinside⟩
    rw [h]
    exact List.isSuffixOf_iff_suffix.mpr (List.suffix_append _ _)
  unfold pathMatches
  simp only [if_neg hne, if_pos hstar, hstrip, if_pos hsuffix]
  rw [h, List.isPrefixOf_iff_prefix]
  simp

/-- Other patterns with a wildcard are compared segment by segment. -/
theorem pathMatches_segments (hstar : '*' ∈ pattern.toList)
    (hmulti : ∀ front, pattern.toList ≠ front ++ ['/', '*', '*'])
    (hsingle : ∀ front, pattern.toList = front ++ ['/', '*'] →
      ['/', '*', '/'] <:+: pattern.toList) :
    pathMatches pattern path = true ↔
      List.Forall₂ Segment.Fits (segments pattern.toList) (segments path.toList) := by
  have hstrip : stripMultiWildcard pattern.toList = none := by
    rw [Option.eq_none_iff_forall_ne_some]
    exact fun other hother ↦ hmulti other (stripMultiWildcard_eq_some_iff.mp hother)
  have hsuffix : ¬ (['/', '*'].isSuffixOf pattern.toList = true ∧
      ¬ ['/', '*', '/'] <:+: pattern.toList) := by
    rintro ⟨hsuffix, hinside⟩
    obtain ⟨front, hfront⟩ := List.isSuffixOf_iff_suffix.mp hsuffix
    exact hinside (hsingle front hfront.symm)
  have hall : pattern ≠ "/*" := by
    rintro rfl
    exact absurd (hsingle [] rfl) (by decide)
  unfold pathMatches
  simp only [if_neg hne, if_pos hstar, hstrip, if_neg hsuffix, if_neg hall]
  exact segmentsMatch_iff

omit hne

/-! ### Where it comes to the same -/

/-- A comparison of texts says the same as another condition if it does for the texts that begin so,
and if the others do not meet it. -/
theorem prefix_iff_iff {front path : List Char} {Q : Prop} {P : List Char → Prop}
    (h : ∀ rest, path = front ++ rest → (Q ↔ P rest)) :
    (front <+: path ↔ Q) ↔
      (∀ rest, path = front ++ rest → P rest) ∧ (¬ front <+: path → ¬ Q) := by
  constructor
  · intro hiff
    refine ⟨fun rest hrest ↦ (h rest hrest).mp (hiff.mp ⟨rest, hrest.symm⟩), fun hnot hq ↦ ?_⟩
    exact hnot (hiff.mpr hq)
  · rintro ⟨hbegins, hother⟩
    refine ⟨fun ⟨rest, hrest⟩ ↦ (h rest hrest.symm).mpr (hbegins rest hrest.symm), fun hq ↦ ?_⟩
    by_contra hnot
    exact hother hnot hq

theorem multi_clear_iff (front path : List Char) :
    (front <+: path ↔ Fits (segments (front ++ ['/', '*', '*'])) (segments path)) ↔
      (∀ rest, path = front ++ rest → AtBoundary rest ∨ EndsWild front) ∧
        (¬ front <+: path → (segments path).length < (segments front).length ∨
          Differ (segments front) (segments path)) := by
  rw [fits_multi_iff, prefix_iff_iff, not_and_or, not_le, not_not]
  rintro rest rfl
  rw [not_differ_append_iff, length_segments, length_segments, List.count_append]
  exact and_iff_right (by omega)

theorem single_clear_iff (front path : List Char) :
    (front <+: path ↔ Fits (segments (front ++ ['/', '*'])) (segments path)) ↔
      (∀ rest, path = front ++ rest →
          rest.count '/' = 1 ∧ (rest.head? = some '/' ∨ EndsWild front)) ∧
        (¬ front <+: path → (segments path).length ≠ (segments front).length + 1 ∨
          Differ (segments front) (segments path)) := by
  rw [fits_single_iff, prefix_iff_iff, not_and_or, not_not]
  rintro rest rfl
  rw [not_differ_append_iff, length_segments, length_segments, List.count_append]
  have hcount : front.count '/' + rest.count '/' + 1 = front.count '/' + 1 + 1 ↔
      rest.count '/' = 1 := by omega
  rw [hcount]
  refine and_congr_right fun hone ↦ or_congr_left (or_iff_right ?_)
  rintro rfl
  exact absurd hone (by decide)

theorem eq_of_forall₂_fits {pattern path : List Segment} (hwild : ['*'] ∉ pattern)
    (h : List.Forall₂ Segment.Fits pattern path) : pattern = path := by
  induction h with
  | nil => rfl
  | cons hfirst hrest ih =>
    rw [List.mem_cons, not_or] at hwild
    rw [hfirst.resolve_left (Ne.symm hwild.1), ih hwild.2]

/-- A pattern without a wildcard stands for itself. -/
theorem fits_plain_iff {pattern path : List Char} (hstar : '*' ∉ pattern) :
    Fits (segments pattern) (segments path) ↔ pattern = path := by
  have hmulti : ∀ front, pattern ≠ front ++ ['/', '*', '*'] := by
    rintro front rfl
    exact hstar (by simp)
  have hwild : ['*'] ∉ segments pattern :=
    fun hmem ↦ hstar (mem_of_mem_segments hmem List.mem_cons_self)
  rw [fits_iff hmulti]
  constructor
  · intro hfits
    have hjoin := congrArg ['/'].intercalate (eq_of_forall₂_fits hwild hfits)
    rwa [segments, segments, List.intercalate_splitOn, List.intercalate_splitOn] at hjoin
  · rintro rfl
    exact List.forall₂_same.mpr fun _ _ ↦ .inr rfl

/-- Comparing texts in front of a wildcard gives what the pattern stands for where it is clear. -/
theorem pathMatches_iff_fits (pattern path : String) :
    (pathMatches pattern path = true ↔ Fits (segments pattern.toList) (segments path.toList)) ↔
      Clear pattern.toList path.toList := by
  by_cases hne : pattern = path
  · subst hne
    have hself : Fits (segments pattern.toList) (segments pattern.toList) :=
      .inl (List.forall₂_same.mpr fun _ _ ↦ .inr rfl)
    have hmatches : pathMatches pattern pattern = true := by simp [pathMatches]
    exact iff_of_true (iff_of_true hmatches hself)
      ⟨fun _ _ hsame ↦ absurd rfl hsame, fun _ _ _ hsame ↦ absurd rfl hsame⟩
  have hlist : pattern.toList ≠ path.toList := fun heq ↦ hne (String.toList_inj.mp heq)
  by_cases hmulti : ∃ front, pattern.toList = front ++ ['/', '*', '*']
  · obtain ⟨front, hfront⟩ := hmulti
    rw [pathMatches_multi hne hfront, hfront, multi_clear_iff]
    constructor
    · refine fun hclear ↦ ⟨fun other hother _ ↦ ?_, fun other hother ↦ ?_⟩
      · rw [List.append_cancel_right hother] at hclear
        exact hclear
      · exact absurd hother.symm (single_ne_multi other front)
    · exact fun hclear ↦ hclear.multi front rfl (hfront ▸ hlist)
  simp only [not_exists] at hmulti
  by_cases hsingle : ∃ front, pattern.toList = front ++ ['/', '*'] ∧
      ¬ ['/', '*', '/'] <:+: pattern.toList
  · obtain ⟨front, hfront, hinside⟩ := hsingle
    rw [pathMatches_single hne hfront hinside, hfront, single_clear_iff]
    constructor
    · refine fun hclear ↦ ⟨fun other hother ↦ ?_, fun other hother _ _ ↦ ?_⟩
      · exact absurd hother (single_ne_multi front other)
      · rw [List.append_cancel_right hother] at hclear
        exact hclear
    · exact fun hclear ↦ hclear.single front rfl (hfront ▸ hinside) (hfront ▸ hlist)
  simp only [not_exists, not_and, not_not] at hsingle
  refine iff_of_true ?_ ⟨fun front hfront ↦ absurd hfront (hmulti front),
    fun front hfront hinside ↦ absurd (hsingle front hfront) hinside⟩
  by_cases hstar : '*' ∈ pattern.toList
  · rw [pathMatches_segments hne hstar hmulti hsingle, fits_iff hmulti]
  · rw [pathMatches_of_plain hstar, fits_plain_iff hstar, String.toList_inj]

/-- A path that goes on over two segments, or inside one, is taken for one that the pattern stands
for. -/
theorem not_fits_api :
    (pathMatches "/api/*" "/api/a/b" = true ∧
      ¬ Fits (segments "/api/*".toList) (segments "/api/a/b".toList)) ∧
    (pathMatches "/api/*" "/apix" = true ∧
      ¬ Fits (segments "/api/*".toList) (segments "/apix".toList)) ∧
    pathMatches "/api/**" "/apix" = true ∧
      ¬ Fits (segments "/api/**".toList) (segments "/apix".toList) := by
  have hsingle := fits_single_iff "/api".toList
  have hmulti := fits_multi_iff "/api".toList
  refine ⟨⟨by decide, fun hfits ↦ ?_⟩, ⟨by decide, fun hfits ↦ ?_⟩, by decide, fun hfits ↦ ?_⟩
  · exact absurd ((hsingle _).mp hfits).1 (by decide)
  · exact absurd ((hsingle _).mp hfits).1 (by decide)
  · refine ((hmulti _).mp hfits).2 ⟨("api".toList, "apix".toList), ?_, ?_⟩ <;> decide

end Lithair.App.RoutePatterns

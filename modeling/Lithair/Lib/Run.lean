import Mathlib.Data.List.Basic

/-!
# Runs of a system given by a partial step function

A concurrent program is a state together with `step : S → A → Option S`: an action names who moves
and what the environment answers, and `none` says that the action is not enabled. `exec` plays a
list of actions, and `Kept` says that one step preserves a property, which `Kept.always` carries to
every run; `exec_induction` is the rule for a property of the state and the actions so far.

Two predicates speak about a whole run. `Always P` says that `P` holds in every state the run
visits, `EachStep C` that every step it takes meets the condition `C`, a condition on the state
before the step and the action. `always_iff_eachStep` reduces the first to the second: when, under
an invariant, one step keeps `P` exactly when it meets `C`, then a run stays inside `P` exactly
when all its steps meet `C`. `always_and_eachStep_iff` does the same for a property of states
together with a property of steps.

A system of several parties has a map from each party to what it is doing, or a list of the parties
that came; `update_eq_some_iff` says what is in the map after one party has moved, and
`countP_set_add` how many of the list are counted then.
-/

namespace Lithair.Lib.Run

variable {S A : Type*} (step : S → A → Option S)

/-- The state that a list of actions leads to, `none` when one of them is not enabled. -/
def exec : S → List A → Option S
  | s, [] => some s
  | s, a :: rest => (step s a).bind fun next ↦ exec next rest

/-- Every state visited by the run satisfies `P`, the first one included. -/
def Always (P : S → Prop) : S → List A → Prop
  | s, [] => P s
  | s, a :: rest => P s ∧ ∀ next, step s a = some next → Always P next rest

/-- Every step taken by the run meets `C`, a condition on the state before it and the action. -/
def EachStep (C : S → A → Prop) : S → List A → Prop
  | _, [] => True
  | s, a :: rest => ∀ next, step s a = some next → C s a ∧ EachStep C next rest

/-- A single step preserves `I`. -/
def Kept (I : S → Prop) : Prop := ∀ s a next, I s → step s a = some next → I next

variable {step}

@[simp] theorem exec_nil (s : S) : exec step s [] = some s := rfl

@[simp] theorem exec_cons (s : S) (a : A) (rest : List A) :
    exec step s (a :: rest) = (step s a).bind fun next ↦ exec step next rest := rfl

theorem exec_cons_eq_some {s t : S} {a : A} {rest : List A} :
    exec step s (a :: rest) = some t ↔
      ∃ next, step s a = some next ∧ exec step next rest = some t := by
  rw [exec_cons, Option.bind_eq_some_iff]

theorem exec_append (s : S) (first second : List A) :
    exec step s (first ++ second) = (exec step s first).bind fun t ↦ exec step t second := by
  induction first generalizing s with
  | nil => rfl
  | cons a rest ih =>
    rw [List.cons_append, exec_cons, exec_cons, Option.bind_assoc]
    exact congrArg (step s a).bind (funext ih)

/-- A system whose actions are always enabled runs to the end. -/
theorem exists_exec (h : ∀ s a, ∃ next, step s a = some next) (s : S) (actions : List A) :
    ∃ t, exec step s actions = some t := by
  induction actions generalizing s with
  | nil => exact ⟨s, rfl⟩
  | cons a rest ih =>
    obtain ⟨next, hnext⟩ := h s a
    obtain ⟨t, ht⟩ := ih next
    exact ⟨t, exec_cons_eq_some.mpr ⟨next, hnext, ht⟩⟩

/-- The invariant rule for what holds of the actions so far and the state they lead to. -/
theorem exec_induction {I : List A → S → Prop} {s t : S} {actions : List A} (hstart : I [] s)
    (hkept : ∀ past u a next, I past u → step u a = some next → I (past ++ [a]) next)
    (hexec : exec step s actions = some t) : I actions t := by
  suffices h : ∀ past u, I past u → exec step u actions = some t → I (past ++ actions) t from
    h [] s hstart hexec
  clear hexec
  induction actions with
  | nil =>
    intro past u hu hexec
    rw [exec_nil, Option.some.injEq] at hexec
    rwa [List.append_nil, ← hexec]
  | cons a rest ih =>
    intro past u hu hexec
    obtain ⟨next, hnext, hrest⟩ := exec_cons_eq_some.mp hexec
    have hI := ih (past ++ [a]) next (hkept past u a next hu hnext) hrest
    rwa [List.append_assoc, List.singleton_append] at hI

theorem Kept.always {I : S → Prop} (hI : Kept step I) {s : S} (hs : I s) (actions : List A) :
    Always step I s actions := by
  induction actions generalizing s with
  | nil => exact hs
  | cons a rest ih => exact ⟨hs, fun next hnext ↦ ih (hI s a next hs hnext)⟩

theorem always_of_forall {P : S → Prop} (h : ∀ s, P s) (s : S) (actions : List A) :
    Always step P s actions :=
  Kept.always (fun _ _ next _ _ ↦ h next) (h s) actions

theorem Always.head {P : S → Prop} {s : S} {actions : List A} (h : Always step P s actions) :
    P s := by
  cases actions with
  | nil => exact h
  | cons a rest => exact h.1

/-- A run satisfies `Always P` exactly when every state that one of its prefixes leads to
satisfies `P`. -/
theorem always_iff_forall_prefix {P : S → Prop} {s : S} {actions : List A} :
    Always step P s actions ↔
      ∀ visited t, visited <+: actions → exec step s visited = some t → P t := by
  induction actions generalizing s with
  | nil =>
    constructor
    · intro hP visited t hprefix hexec
      rw [List.prefix_nil.mp hprefix, exec_nil, Option.some.injEq] at hexec
      exact hexec ▸ hP
    · intro h
      exact h [] s List.prefix_rfl rfl
  | cons a rest ih =>
    constructor
    · intro hAlways visited t hprefix hexec
      cases visited with
      | nil =>
        rw [exec_nil, Option.some.injEq] at hexec
        exact hexec ▸ hAlways.1
      | cons b tail =>
        obtain ⟨rfl, htail⟩ := List.cons_prefix_cons.mp hprefix
        obtain ⟨next, hnext, hrest⟩ := exec_cons_eq_some.mp hexec
        exact ih.mp (hAlways.2 next hnext) tail t htail hrest
    · intro h
      refine ⟨h [] s List.nil_prefix rfl, fun next hnext ↦ ih.mpr ?_⟩
      intro visited t hprefix hexec
      exact h (a :: visited) t (List.cons_prefix_cons.mpr ⟨rfl, hprefix⟩)
        (exec_cons_eq_some.mpr ⟨next, hnext, hexec⟩)

theorem eachStep_cons {C : S → A → Prop} {s next : S} {a : A} {rest : List A}
    (hnext : step s a = some next) :
    EachStep step C s (a :: rest) ↔ C s a ∧ EachStep step C next rest := by
  constructor
  · exact fun h ↦ h next hnext
  · intro h other hother
    rw [hnext, Option.some.injEq] at hother
    exact hother ▸ h

theorem EachStep.cons {C : S → A → Prop} {s next : S} {a : A} {rest : List A}
    (hnext : step s a = some next) (ha : C s a) (hrest : EachStep step C next rest) :
    EachStep step C s (a :: rest) :=
  (eachStep_cons hnext).mpr ⟨ha, hrest⟩

/-- The invariant rule relative to a condition on the steps. -/
theorem EachStep.always {C : S → A → Prop} {I : S → Prop}
    (hkept : ∀ s a next, I s → C s a → step s a = some next → I next) {s : S}
    {actions : List A} (hs : I s) (hsteps : EachStep step C s actions) :
    Always step I s actions := by
  induction actions generalizing s with
  | nil => exact hs
  | cons a rest ih =>
    refine ⟨hs, fun next hnext ↦ ?_⟩
    obtain ⟨hC, hrest⟩ := hsteps next hnext
    exact ih (hkept s a next hs hC hnext) hrest

/-- Under an invariant relative to a condition on the steps, the steps meet what follows from
both. -/
theorem EachStep.imp {C D : S → A → Prop} {I : S → Prop}
    (hkept : ∀ s a next, I s → C s a → step s a = some next → I next)
    (himp : ∀ s a next, I s → C s a → step s a = some next → D s a) {s : S} {actions : List A}
    (hs : I s) (hsteps : EachStep step C s actions) : EachStep step D s actions := by
  induction actions generalizing s with
  | nil => trivial
  | cons a rest ih =>
    intro next hnext
    obtain ⟨hC, hrest⟩ := hsteps next hnext
    exact ⟨himp s a next hs hC hnext, ih (hkept s a next hs hC hnext) hrest⟩

theorem Always.mono {P Q : S → Prop} (h : ∀ s, P s → Q s) {s : S} {actions : List A}
    (hP : Always step P s actions) : Always step Q s actions := by
  induction actions generalizing s with
  | nil => exact h s hP
  | cons a rest ih => exact ⟨h s hP.1, fun next hnext ↦ ih (hP.2 next hnext)⟩

/-- A run of two parts meets a condition when the first part does, and the second from where the
first leads to. -/
theorem eachStep_append {C : S → A → Prop} {s : S} {first second : List A} :
    EachStep step C s (first ++ second) ↔
      EachStep step C s first ∧ ∀ t, exec step s first = some t → EachStep step C t second := by
  induction first generalizing s with
  | nil =>
    rw [List.nil_append, exec_nil]
    exact ⟨fun h ↦ ⟨trivial, fun t ht ↦ Option.some.inj ht ▸ h⟩, fun h ↦ h.2 s rfl⟩
  | cons a rest ih =>
    constructor
    · intro h
      refine ⟨fun next hnext ↦ ⟨(h next hnext).1, (ih.mp (h next hnext).2).1⟩, fun t ht ↦ ?_⟩
      obtain ⟨next, hnext, hrest⟩ := exec_cons_eq_some.mp ht
      exact (ih.mp (h next hnext).2).2 t hrest
    · rintro ⟨hfirst, hsecond⟩ next hnext
      refine ⟨(hfirst next hnext).1, ih.mpr ⟨(hfirst next hnext).2, fun t ht ↦ ?_⟩⟩
      exact hsecond t (exec_cons_eq_some.mpr ⟨next, hnext, ht⟩)

/-- A condition that does not look at the state is met by every run of actions that meet it. -/
theorem eachStep_of_forall {C : S → A → Prop} {actions : List A} (h : ∀ a ∈ actions, ∀ s, C s a)
    (s : S) : EachStep step C s actions := by
  induction actions generalizing s with
  | nil => trivial
  | cons a rest ih =>
    exact fun next _ ↦ ⟨h a List.mem_cons_self s, ih (fun b hb ↦ h b (List.mem_cons_of_mem _ hb)) _⟩

theorem eachStep_congr {C D : S → A → Prop}
    (h : ∀ s a next, step s a = some next → (C s a ↔ D s a)) {s : S} {actions : List A} :
    EachStep step C s actions ↔ EachStep step D s actions := by
  induction actions generalizing s with
  | nil => exact Iff.rfl
  | cons a rest ih =>
    exact forall₂_congr fun next hnext ↦ and_congr (h s a next hnext) ih

/-- The last state of a run that satisfies `Always P`. -/
theorem Always.exec {P : S → Prop} {s t : S} {actions : List A} (h : Always step P s actions)
    (hexec : exec step s actions = some t) : P t :=
  always_iff_forall_prefix.mp h actions t List.prefix_rfl hexec

/-- A run stays inside `P` with all its steps in `D` exactly when each of its steps meets `C`,
provided that under the invariant `I` a single step does so exactly when it meets `C`. -/
theorem always_and_eachStep_iff {P I : S → Prop} {C D : S → A → Prop} (hI : Kept step I)
    (hcore : ∀ s a next, I s → P s → step s a = some next → (P next ∧ D s a ↔ C s a)) {s : S}
    (hs : I s) (hP : P s) (actions : List A) :
    Always step P s actions ∧ EachStep step D s actions ↔ EachStep step C s actions := by
  induction actions generalizing s with
  | nil => exact ⟨fun _ ↦ trivial, fun _ ↦ ⟨hP, trivial⟩⟩
  | cons a rest ih =>
    constructor
    · rintro ⟨⟨-, hAlways⟩, hEach⟩ next hnext
      have hPnext : P next := (hAlways next hnext).head
      obtain ⟨hD, hrest⟩ := hEach next hnext
      exact ⟨(hcore s a next hs hP hnext).mp ⟨hPnext, hD⟩,
        (ih (hI s a next hs hnext) hPnext).mp ⟨hAlways next hnext, hrest⟩⟩
    · intro hsteps
      have hcons : ∀ next, step s a = some next →
          D s a ∧ Always step P next rest ∧ EachStep step D next rest := by
        intro next hnext
        obtain ⟨hC, hrest⟩ := hsteps next hnext
        obtain ⟨hPnext, hD⟩ := (hcore s a next hs hP hnext).mpr hC
        exact ⟨hD, (ih (hI s a next hs hnext) hPnext).mpr hrest⟩
      exact ⟨⟨hP, fun next hnext ↦ (hcons next hnext).2.1⟩,
        fun next hnext ↦ ⟨(hcons next hnext).1, (hcons next hnext).2.2⟩⟩

theorem eachStep_true (s : S) (actions : List A) : EachStep step (fun _ _ ↦ True) s actions :=
  eachStep_of_forall (fun _ _ _ ↦ trivial) s

/-- A run stays inside `P` exactly when each of its steps meets `C`, provided that under the
invariant `I` a single step keeps `P` exactly when it meets `C`. -/
theorem always_iff_eachStep {P I : S → Prop} {C : S → A → Prop} (hI : Kept step I)
    (hcore : ∀ s a next, I s → P s → step s a = some next → (P next ↔ C s a)) {s : S}
    (hs : I s) (hP : P s) (actions : List A) :
    Always step P s actions ↔ EachStep step C s actions := by
  have h : Always step P s actions ∧ EachStep step (fun _ _ ↦ True) s actions ↔
      EachStep step C s actions :=
    always_and_eachStep_iff hI
      (fun s a next hs hP hnext ↦ (and_iff_left trivial).trans (hcore s a next hs hP hnext))
      hs hP actions
  rwa [and_iff_left (eachStep_true s actions)] at h

/-- `always_iff_eachStep` without an invariant, from any state. -/
theorem always_iff_and_eachStep {P : S → Prop} {C : S → A → Prop}
    (hcore : ∀ s a next, P s → step s a = some next → (P next ↔ C s a)) {s : S} (actions : List A) :
    Always step P s actions ↔ P s ∧ EachStep step C s actions := by
  have hrun (hP : P s) : Always step P s actions ↔ EachStep step C s actions :=
    always_iff_eachStep (I := fun _ ↦ True) (fun _ _ _ _ _ ↦ trivial)
      (fun s a next _ ↦ hcore s a next) trivial hP actions
  constructor
  · intro h
    exact ⟨h.head, (hrun h.head).mp h⟩
  · rintro ⟨hP, hsteps⟩
    exact (hrun hP).mpr hsteps

theorem EachStep.and {C D : S → A → Prop} {s : S} {actions : List A}
    (hC : EachStep step C s actions) (hD : EachStep step D s actions) :
    EachStep step (fun s a ↦ C s a ∧ D s a) s actions := by
  induction actions generalizing s with
  | nil => trivial
  | cons a rest ih =>
    intro next hnext
    obtain ⟨hCs, hCrest⟩ := hC next hnext
    obtain ⟨hDs, hDrest⟩ := hD next hnext
    exact ⟨⟨hCs, hDs⟩, ih hCrest hDrest⟩

/-- `always_iff_eachStep` for the runs of some of the actions, which keep the invariant. -/
theorem always_iff_eachStep_of_forall {P I : S → Prop} {C : S → A → Prop} {D : A → Prop}
    (hI : ∀ s a next, I s → D a → step s a = some next → I next)
    (hcore : ∀ s a next, I s → P s → D a → step s a = some next → (P next ↔ C s a)) {s : S}
    (hs : I s) (hP : P s) {actions : List A} (hactions : ∀ a ∈ actions, D a) :
    Always step P s actions ↔ EachStep step C s actions := by
  induction actions generalizing s with
  | nil => exact ⟨fun _ ↦ trivial, fun _ ↦ hP⟩
  | cons a rest ih =>
    have hD : D a := hactions a List.mem_cons_self
    have hrest : ∀ b ∈ rest, D b := fun b hb ↦ hactions b (List.mem_cons_of_mem a hb)
    constructor
    · intro hAlways next hnext
      have hnextAlways := hAlways.2 next hnext
      exact ⟨(hcore s a next hs hP hD hnext).mp hnextAlways.head,
        (ih (hI s a next hs hD hnext) hnextAlways.head hrest).mp hnextAlways⟩
    · intro hsteps
      refine ⟨hP, fun next hnext ↦ ?_⟩
      obtain ⟨hC, hEach⟩ := hsteps next hnext
      have hPnext : P next := (hcore s a next hs hP hD hnext).mpr hC
      exact (ih (hI s a next hs hD hnext) hPnext hrest).mpr hEach

/-- What a party is doing after one of them has been given something else to do. -/
theorem update_eq_some_iff {ι B : Type*} [DecidableEq ι] {f : ι → Option B} {i j : ι}
    {new : Option B} {x : B} :
    Function.update f i new j = some x ↔ (j = i ∧ new = some x) ∨ (j ≠ i ∧ f j = some x) := by
  by_cases hji : j = i
  · subst hji
    rw [Function.update_self]
    simp
  · rw [Function.update_of_ne hji]
    simp [hji]

theorem countP_set_add {B : Type*} {parties : List B} {i : ℕ} {x : B}
    (hi : parties[i]? = some x) (y : B) (p : B → Bool) :
    (parties.set i y).countP p + (if p x then 1 else 0) =
      parties.countP p + if p y then 1 else 0 := by
  obtain ⟨hlt, rfl⟩ := List.getElem?_eq_some_iff.mp hi
  have hcounted (hp : p parties[i] = true) : 0 < parties.countP p :=
    List.countP_pos_iff.mpr ⟨parties[i], List.getElem_mem hlt, hp⟩
  rw [List.countP_set hlt]
  by_cases hp : p parties[i] = true
  · have := hcounted hp
    rw [if_pos hp]
    omega
  · rw [if_neg hp]
    omega

theorem countP_set_eq {B : Type*} {parties : List B} {i : ℕ} {x y : B}
    (hi : parties[i]? = some x) {p : B → Bool} (h : p y = p x) :
    (parties.set i y).countP p = parties.countP p := by
  have hcount := countP_set_add hi y p
  rw [h] at hcount
  exact Nat.add_right_cancel hcount

/-- Who is in the list after one more party has come. -/
theorem getElem?_concat_eq_some {B : Type*} {parties : List B} {j : ℕ} {x y : B}
    (h : (parties ++ [y])[j]? = some x) : parties[j]? = some x ∨ x = y := by
  rcases Nat.lt_or_ge j parties.length with hlt | hge
  · rw [List.getElem?_append_left hlt] at h
    exact .inl h
  · rw [List.getElem?_append_right hge] at h
    exact .inr (List.mem_singleton.mp (List.mem_of_getElem? h))

/-- What a party of the list is after one of them has moved. -/
theorem getElem?_set_eq_some {B : Type*} {parties : List B} {i j : ℕ} {x y : B}
    (h : (parties.set i y)[j]? = some x) : (j = i ∧ x = y) ∨ (j ≠ i ∧ parties[j]? = some x) := by
  by_cases hji : j = i
  · subst hji
    rw [List.getElem?_set_self'] at h
    obtain ⟨-, -, rfl⟩ := Option.map_eq_some_iff.mp h
    exact .inl ⟨rfl, rfl⟩
  · rw [List.getElem?_set_ne (Ne.symm hji)] at h
    exact .inr ⟨hji, h⟩

/-- What every party has, when those that did not move have it. -/
theorem forall_mem_set {B : Type*} {parties : List B} {i : ℕ} {y : B} {P : B → Prop}
    (h : ∀ x ∈ parties, P x) (hy : P y) : ∀ x ∈ parties.set i y, P x := by
  intro x hx
  rcases List.mem_or_eq_of_mem_set hx with hold | rfl
  · exact h x hold
  · exact hy

end Lithair.Lib.Run

import Mathlib.Data.List.Forall2
import Mathlib.Data.List.Induction

/-!
# Chains of hashes

Entries that name the hash of the entry before them, from a start that is no entry's hash. When the
hash of an entry commits to what the entry names, two chains that have an entry with the same hash
have the same hashes up to it (`sameHashes_of_hash_eq`), so that one chain is the front of another,
as far as the hashes go, and behind it no hash of the other occurs (`front_then_foreign`).
-/

namespace Lithair.Lib.HashChain

variable {E K : Type*} (link hash : E → K)

/-- Each entry names the hash of the entry before it, the first one `start`. -/
def Linked : K → List E → Prop
  | _, [] => True
  | start, e :: rest => link e = start ∧ Linked (hash e) rest

/-- The hash of the last entry. -/
def lastHash (start : K) (entries : List E) : K := entries.foldl (fun _ e ↦ hash e) start

/-- The entries have the same hashes. -/
def SameHashes (first second : List E) : Prop :=
  List.Forall₂ (fun a b ↦ hash a = hash b) first second

variable {link hash} {start : K} {first second : List E} {a b : E}

@[simp] theorem lastHash_concat : lastHash hash start (first ++ [a]) = hash a := by
  rw [lastHash, List.foldl_append]
  rfl

theorem linked_append : Linked link hash start (first ++ second) ↔
    Linked link hash start first ∧ Linked link hash (lastHash hash start first) second := by
  induction first generalizing start with
  | nil => exact (and_iff_right trivial).symm
  | cons e rest ih =>
    show _ ∧ Linked link hash (hash e) (rest ++ second) ↔ (_ ∧ _) ∧ _
    rw [ih, and_assoc]
    rfl

/-- What an entry of a chain names is the start or the hash of an entry. -/
theorem link_of_mem (h : Linked link hash start first) (ha : a ∈ first) :
    link a = start ∨ ∃ e ∈ first, link a = hash e := by
  induction first generalizing start with
  | nil => exact absurd ha List.not_mem_nil
  | cons e rest ih =>
    rcases List.mem_cons.mp ha with rfl | ha
    · exact Or.inl h.1
    · rcases ih h.2 ha with hlink | ⟨e', he', hlink⟩
      · exact Or.inr ⟨e, List.mem_cons_self, hlink⟩
      · exact Or.inr ⟨e', List.mem_cons_of_mem e he', hlink⟩

/-- Each entry behind the first names the hash of the one before it. -/
theorem link_getElem (h : Linked link hash start first) {i : ℕ} (hi : i + 1 < first.length) :
    link first[i + 1] = hash first[i] := by
  induction first generalizing start i with
  | nil => exact absurd hi (Nat.not_lt_zero _)
  | cons e rest ih =>
    cases i with
    | zero =>
      cases rest with
      | nil => exact absurd hi (Nat.lt_irrefl 1)
      | cons e' rest => exact h.2.1
    | succ i => exact ih h.2 (Nat.lt_of_succ_lt_succ hi)

/-- A chain grows by an entry that names the last hash. -/
theorem linked_concat : Linked link hash start (first ++ [a]) ↔
    Linked link hash start first ∧ link a = lastHash hash start first := by
  rw [linked_append]
  exact and_congr_right fun _ ↦ and_iff_left trivial

/-- Two chains that end in the same hash have the same hashes. -/
theorem sameHashes_of_hash_eq
    (hcommits : ∀ e ∈ first ++ [a], ∀ e' ∈ second ++ [b], hash e = hash e' → link e = link e')
    (hstart : ∀ e ∈ first ++ second, hash e ≠ start)
    (hfirst : Linked link hash start (first ++ [a]))
    (hsecond : Linked link hash start (second ++ [b])) (hab : hash a = hash b) :
    SameHashes hash (first ++ [a]) (second ++ [b]) := by
  induction first using List.reverseRecOn generalizing second a b with
  | nil =>
    have hlink := hcommits a (by simp) b (by simp) hab
    have ha : link a = start := (linked_concat.mp hfirst).2
    have hb : link b = lastHash hash start second := (linked_concat.mp hsecond).2
    -- The second chain is at its start too, since no hash in it is the start.
    cases second using List.reverseRecOn with
    | nil => exact List.Forall₂.cons hab List.Forall₂.nil
    | append_singleton second b' =>
      rw [lastHash_concat, ← hlink, ha] at hb
      exact absurd hb.symm (hstart b' (by simp))
  | append_singleton first a' ih =>
    have hlink := hcommits a (by simp) b (by simp) hab
    obtain ⟨hfirst', ha⟩ := linked_concat.mp hfirst
    obtain ⟨hsecond', hb⟩ := linked_concat.mp hsecond
    rw [lastHash_concat, hlink, hb] at ha
    cases second using List.reverseRecOn with
    | nil => exact absurd ha.symm (hstart a' (by simp))
    | append_singleton second b' =>
      rw [lastHash_concat] at ha
      have hcommits' : ∀ e ∈ first ++ [a'], ∀ e' ∈ second ++ [b'], hash e = hash e' →
          link e = link e' := by
        intro e he e' he'
        exact hcommits e (List.mem_append_left [a] he) e' (List.mem_append_left [b] he')
      have hstart' : ∀ e ∈ first ++ second, hash e ≠ start := by
        intro e he
        refine hstart e ?_
        rcases List.mem_append.mp he with he | he <;> simp [he]
      exact List.rel_append (ih hcommits' hstart' hfirst' hsecond' ha.symm)
        (List.Forall₂.cons hab List.Forall₂.nil)

/-- A chain is the front of another, as far as the hashes go, with entries behind it whose hashes do
not occur in the other. -/
theorem front_then_foreign
    (hcommits : ∀ e ∈ first, ∀ e' ∈ second, hash e = hash e' → link e = link e')
    (hstart : ∀ e ∈ first ++ second, hash e ≠ start)
    (hfirst : Linked link hash start first) (hsecond : Linked link hash start second) :
    ∃ n ≤ first.length, SameHashes hash (first.take n) (second.take n) ∧
      ∀ e ∈ first.drop n, ∀ e' ∈ second, hash e ≠ hash e' := by
  induction first using List.reverseRecOn with
  | nil => exact ⟨0, Nat.le_refl 0, List.Forall₂.nil, fun e he ↦ absurd he List.not_mem_nil⟩
  | append_singleton first a ih =>
    by_cases hknown : ∃ b ∈ second, hash a = hash b
    · obtain ⟨b, hb, hab⟩ := hknown
      obtain ⟨front, rest, rfl⟩ := List.append_of_mem hb
      have hsplit : front ++ b :: rest = (front ++ [b]) ++ rest := by
        rw [List.append_assoc]
        rfl
      rw [hsplit] at hsecond hcommits
      have hsame : SameHashes hash (first ++ [a]) (front ++ [b]) := by
        refine sameHashes_of_hash_eq ?_ ?_ hfirst (linked_append.mp hsecond).1 hab
        · exact fun e he e' he' ↦ hcommits e he e' (List.mem_append_left rest he')
        · intro e he
          refine hstart e ?_
          rcases List.mem_append.mp he with he | he <;> simp [he]
      have hlength : (first ++ [a]).length = (front ++ [b]).length := hsame.length_eq
      refine ⟨(first ++ [a]).length, Nat.le_refl _, ?_, ?_⟩
      · rw [List.take_length, hsplit, hlength, List.take_left]
        exact hsame
      · rw [List.drop_length]
        exact fun e he ↦ absurd he List.not_mem_nil
    · obtain ⟨n, hn, hsame, hforeign⟩ := ih
        (fun e he ↦ hcommits e (List.mem_append_left [a] he))
        (fun e he ↦ hstart e (by
          rcases List.mem_append.mp he with he | he <;> simp [he]))
        (linked_concat.mp hfirst).1
      refine ⟨n, Nat.le_trans hn (by simp), ?_, ?_⟩
      · rw [List.take_append_of_le_length hn]
        exact hsame
      · rw [List.drop_append_of_le_length hn]
        intro e he e' he'
        rcases List.mem_append.mp he with he | he
        · exact hforeign e he e' he'
        · rw [List.mem_singleton.mp he]
          exact fun heq ↦ hknown ⟨e', he', heq⟩

end Lithair.Lib.HashChain

import Lithair.Lib.Framing
import Mathlib.Data.List.TakeWhile

/-!
# Reading through a buffer

A line on which items arrive in parts (`Source`), and a reader that takes them through a buffer
(`Reader`): the buffer is filled by one read of the line when it is empty, a read for at least as
many items as the buffer holds goes past it, and what is left in the buffer goes when the reader
does.

Reading loses and adds nothing (`readUntil_items`, `readExact_items`), and finds what was sent, in
whatever parts it arrives (`readUntil_line`, `readExact_append`). What a reader has taken off the
line beyond that depends on the parts: `Fetched` says that the reads for a message, which has a head
that is read up to marks and a body of known length, took nothing that is behind it, and `Within`
follows this through the reads.
-/

namespace Lithair.Lib.Buffered

open Framing

variable {α : Type*}

/-- What is still to arrive, part after part, and whether the sender closes the line behind it.
Otherwise the line falls silent. -/
structure Source (α : Type*) where
  parts : List (List α)
  closed : Bool

/-- Why nothing was read: the line is silent, or it ended. -/
inductive ReadError
  | silent
  | ended
  deriving DecidableEq

def Source.items (s : Source α) : List α := s.parts.flatten

/-- The parts, with what is left of the first in front. -/
def putBack (left : List α) (parts : List (List α)) : List (List α) :=
  match left with
  | [] => parts
  | a :: left => (a :: left) :: parts

/-- Up to `n` items of the next part that has any. -/
def takeParts (n : ℕ) : List (List α) → Option (List α × List (List α))
  | [] => none
  | [] :: parts => takeParts n parts
  | (a :: part) :: parts => some ((a :: part).take n, putBack ((a :: part).drop n) parts)

/-- One read of the line, for at most `n` items. There are none at its end. -/
def Source.read (n : ℕ) (s : Source α) : Except ReadError (List α × Source α) :=
  match takeParts n s.parts with
  | some (data, parts) => .ok (data, { s with parts })
  | none => if s.closed then .ok ([], s) else .error .silent

/-- A buffer, and the line behind it. -/
structure Reader (α : Type*) where
  buffer : List α
  source : Source α

namespace Reader

def items (r : Reader α) : List α := r.buffer ++ r.source.items

variable (capacity : ℕ)

/-- Fill the buffer if it is empty. -/
def fill (r : Reader α) : Except ReadError (Reader α) :=
  match r.buffer with
  | [] =>
    match r.source.read capacity with
    | .ok (data, source) => .ok ⟨data, source⟩
    | .error e => .error e
  | _ :: _ => .ok r

/-- One read, for at most `n` items. -/
def read (n : ℕ) (r : Reader α) : Except ReadError (List α × Reader α) :=
  if r.buffer = [] ∧ capacity ≤ n then
    match r.source.read n with
    | .ok (data, source) => .ok (data, ⟨[], source⟩)
    | .error e => .error e
  else
    match r.fill capacity with
    | .ok r => .ok (r.buffer.take n, { r with buffer := r.buffer.drop n })
    | .error e => .error e

/-- Exactly `n` items, by at most `fuel` reads. -/
def readExactFrom : ℕ → ℕ → Reader α → Except ReadError (List α × Reader α)
  | _, 0, r => .ok ([], r)
  | 0, _ + 1, _ => .error .ended
  | fuel + 1, n + 1, r =>
    match r.read capacity (n + 1) with
    | .error e => .error e
    | .ok ([], _) => .error .ended
    | .ok (a :: data, r) =>
      match readExactFrom fuel (n + 1 - (a :: data).length) r with
      | .ok (more, r) => .ok (a :: data ++ more, r)
      | .error e => .error e

/-- Exactly `n` items. Every read brings one at least. -/
def readExact (n : ℕ) (r : Reader α) : Except ReadError (List α × Reader α) :=
  readExactFrom capacity n n r

variable [DecidableEq α] (mark : α)

/-- The items up to the next mark and the mark, or all there are, when the buffer is filled at most
`fuel` times. -/
def readUntilFrom : ℕ → Reader α → Except ReadError (List α × Reader α)
  | 0, r => .ok ([], r)
  | fuel + 1, r =>
    match r.fill capacity with
    | .error e => .error e
    | .ok r =>
      if r.buffer = [] then .ok ([], r)
      else if mark ∈ r.buffer then
        .ok (r.buffer.takeWhile (· ≠ mark) ++ [mark],
          { r with buffer := (r.buffer.dropWhile (· ≠ mark)).tail })
      else
        match readUntilFrom fuel { r with buffer := [] } with
        | .ok (more, next) => .ok (r.buffer ++ more, next)
        | .error e => .error e

/-- The items up to the next mark and the mark, or all there are. -/
def readUntil (r : Reader α) : Except ReadError (List α × Reader α) :=
  readUntilFrom capacity mark (r.items.length + 1) r

end Reader

/-! ### What one read takes -/

section Read

variable {capacity n : ℕ} {parts left : List (List α)} {data : List α}

@[simp] theorem putBack_flatten (rest : List α) (parts : List (List α)) :
    (putBack rest parts).flatten = rest ++ parts.flatten := by
  cases rest <;> rfl

theorem items_of_takeParts (h : takeParts n parts = some (data, left)) :
    data ++ left.flatten = parts.flatten ∧ data.length ≤ n ∧ (0 < n → data ≠ []) := by
  induction parts with
  | nil => exact absurd h nofun
  | cons part parts ih =>
    cases part with
    | nil => exact ih h
    | cons a part =>
      obtain ⟨rfl, rfl⟩ := Prod.mk.inj (Option.some.inj h)
      refine ⟨?_, List.length_take_le _ _, fun hpos ↦ ?_⟩
      · rw [putBack_flatten, ← List.append_assoc, List.take_append_drop, List.flatten_cons]
      · obtain ⟨n, rfl⟩ : ∃ m, n = m + 1 := ⟨n - 1, by omega⟩
        exact List.cons_ne_nil _ _

/-- While there are items a read brings some. -/
theorem exists_takeParts (n : ℕ) (h : parts.flatten ≠ []) :
    ∃ data left, takeParts n parts = some (data, left) := by
  induction parts with
  | nil => exact absurd rfl h
  | cons part parts ih =>
    cases part with
    | nil => exact ih h
    | cons a part => exact ⟨_, _, rfl⟩

theorem read_items {s next : Source α} (h : s.read n = .ok (data, next)) :
    data ++ next.items = s.items ∧ data.length ≤ n := by
  unfold Source.read at h
  split at h
  · next htake =>
    obtain ⟨rfl, rfl⟩ := Prod.mk.inj (Except.ok.inj h)
    obtain ⟨hitems, hlength, -⟩ := items_of_takeParts htake
    exact ⟨hitems, hlength⟩
  · split_ifs at h
    obtain ⟨rfl, rfl⟩ := Prod.mk.inj (Except.ok.inj h)
    exact ⟨rfl, Nat.zero_le n⟩

theorem fill_items {r next : Reader α} (h : r.fill capacity = .ok next) :
    next.items = r.items := by
  obtain ⟨buffer, source⟩ := r
  unfold Reader.fill at h
  cases buffer with
  | nil =>
    simp only at h
    split at h
    · next hread =>
      rw [← Except.ok.inj h]
      exact (read_items hread).1
    · exact absurd h nofun
  | cons a buffer => rw [← Except.ok.inj h]

theorem reader_read_items {r next : Reader α} (h : r.read capacity n = .ok (data, next)) :
    data ++ next.items = r.items ∧ data.length ≤ n := by
  unfold Reader.read at h
  split_ifs at h with hpast
  · split at h
    · next hread =>
      obtain ⟨rfl, rfl⟩ := Prod.mk.inj (Except.ok.inj h)
      have hitems : r.items = r.source.items := by
        rw [Reader.items, hpast.1]
        rfl
      rw [hitems]
      exact read_items hread
    · exact absurd h nofun
  · split at h
    · next filled hfill =>
      obtain ⟨rfl, rfl⟩ := Prod.mk.inj (Except.ok.inj h)
      refine ⟨?_, List.length_take_le _ _⟩
      rw [← fill_items hfill, Reader.items, Reader.items, ← List.append_assoc,
        List.take_append_drop]
    · exact absurd h nofun

end Read

/-! ### Nothing is lost and nothing is added -/

/-- A list that has a mark, cut at the first. -/
theorem cut_at_mark [DecidableEq α] {mark : α} {items : List α} (h : mark ∈ items) :
    mark ∉ items.takeWhile (· ≠ mark) ∧
      items.takeWhile (· ≠ mark) ++ mark :: (items.dropWhile (· ≠ mark)).tail = items := by
  constructor
  · intro hmem
    simpa using List.mem_takeWhile_imp hmem
  · induction items with
    | nil => exact absurd h List.not_mem_nil
    | cons a items ih =>
      by_cases ha : a = mark
      · simp [ha]
      · have hmem : mark ∈ items := (List.mem_cons.mp h).resolve_left (Ne.symm ha)
        have hrest := ih hmem
        simp only [ne_eq, decide_not] at hrest
        simp [ha, hrest]

section Conserved

variable {capacity : ℕ} {data : List α}

theorem readExactFrom_items {fuel n : ℕ} {r next : Reader α}
    (h : r.readExactFrom capacity fuel n = .ok (data, next)) :
    data ++ next.items = r.items ∧ data.length = n := by
  induction fuel generalizing n r data with
  | zero =>
    cases n with
    | zero =>
      obtain ⟨rfl, rfl⟩ := Prod.mk.inj (Except.ok.inj h)
      exact ⟨rfl, rfl⟩
    | succ n => exact absurd h nofun
  | succ fuel ih =>
    cases n with
    | zero =>
      obtain ⟨rfl, rfl⟩ := Prod.mk.inj (Except.ok.inj h)
      exact ⟨rfl, rfl⟩
    | succ n =>
      unfold Reader.readExactFrom at h
      split at h
      · exact absurd h nofun
      · exact absurd h nofun
      · next a got rest hread =>
        obtain ⟨hitems, hlength⟩ := reader_read_items hread
        split at h
        · next more last hmore =>
          obtain ⟨rfl, rfl⟩ := Prod.mk.inj (Except.ok.inj h)
          obtain ⟨hrest, hmoreLength⟩ := ih hmore
          refine ⟨?_, ?_⟩
          · rw [List.append_assoc, hrest, hitems]
          · rw [List.length_append, hmoreLength]
            omega
        · exact absurd h nofun

theorem readExact_items {n : ℕ} {r next : Reader α}
    (h : r.readExact capacity n = .ok (data, next)) :
    data ++ next.items = r.items ∧ data.length = n :=
  readExactFrom_items h

variable [DecidableEq α] {mark : α}

theorem readUntilFrom_items {fuel : ℕ} {r next : Reader α}
    (h : r.readUntilFrom capacity mark fuel = .ok (data, next)) : data ++ next.items = r.items := by
  induction fuel generalizing r data with
  | zero =>
    obtain ⟨rfl, rfl⟩ := Prod.mk.inj (Except.ok.inj h)
    rfl
  | succ fuel ih =>
    unfold Reader.readUntilFrom at h
    split at h
    · exact absurd h nofun
    · next filled hfill =>
      rw [← fill_items hfill]
      split_ifs at h with hempty hmem
      · obtain ⟨rfl, rfl⟩ := Prod.mk.inj (Except.ok.inj h)
        rfl
      · obtain ⟨rfl, rfl⟩ := Prod.mk.inj (Except.ok.inj h)
        have hcut := (cut_at_mark hmem).2
        simp only [Reader.items, List.append_assoc, List.singleton_append]
        rw [← List.cons_append, ← List.append_assoc, hcut]
      · split at h
        · next more last hmore =>
          obtain ⟨rfl, rfl⟩ := Prod.mk.inj (Except.ok.inj h)
          rw [List.append_assoc, ih hmore]
          rfl
        · exact absurd h nofun

theorem readUntil_items {r next : Reader α} (h : r.readUntil capacity mark = .ok (data, next)) :
    data ++ next.items = r.items :=
  readUntilFrom_items h

end Conserved

/-! ### Reads that stay within a message -/

/-- For how many items a read asks while a head of `head` items and a body of `body` items have not
arrived: past the buffer for a long body, else as many as the buffer holds. -/
def ask (capacity head body : ℕ) : ℕ := if head = 0 ∧ capacity ≤ body then body else capacity

/-- The reads for a message of which `head` items of the head and `body` items of the body have not
arrived take nothing that is behind it, and leave the parts `left`. -/
inductive Fetched (capacity : ℕ) : ℕ → ℕ → List (List α) → List (List α) → Prop
  | done (parts : List (List α)) : Fetched capacity 0 0 parts parts
  | read {head body : ℕ} {parts rest left : List (List α)} {data : List α}
      (hpos : 0 < head + body)
      (htake : takeParts (ask capacity head body) parts = some (data, rest))
      (hfit : data.length ≤ head + body)
      (hrest : Fetched capacity (head - data.length) (body - (data.length - head)) rest left) :
      Fetched capacity head body parts left

/-- The same with a part of the message in the buffer. -/
def Reader.Within (capacity head body : ℕ) (r : Reader α) (left : List (List α)) : Prop :=
  r.buffer.length ≤ head + body ∧
    Fetched capacity (head - r.buffer.length) (body - (r.buffer.length - head)) r.source.parts left

section Fetched

variable {capacity head body n : ℕ} {parts rest left : List (List α)} {data : List α}
  {r : Reader α}

theorem fetched_zero_iff : Fetched capacity 0 0 parts left ↔ left = parts := by
  constructor
  · intro h
    cases h with
    | done => rfl
    | read hpos => exact absurd hpos (Nat.lt_irrefl 0)
  · rintro rfl
    exact .done left

theorem fetched_iff (hpos : 0 < head + body)
    (htake : takeParts (ask capacity head body) parts = some (data, rest)) :
    Fetched capacity head body parts left ↔ data.length ≤ head + body ∧
      Fetched capacity (head - data.length) (body - (data.length - head)) rest left := by
  constructor
  · intro h
    cases h with
    | done => exact absurd hpos (Nat.lt_irrefl 0)
    | read _ htake' hfit hrest =>
      rw [htake, Option.some.injEq, Prod.mk.injEq] at htake'
      obtain ⟨rfl, rfl⟩ := htake'
      exact ⟨hfit, hrest⟩
  · rintro ⟨hfit, hrest⟩
    exact .read hpos htake hfit hrest

theorem within_empty_iff (source : Source α) :
    Reader.Within capacity head body ⟨[], source⟩ left ↔
      Fetched capacity head body source.parts left := by
  unfold Reader.Within
  simp only [List.length_nil, Nat.sub_zero, Nat.zero_sub, Nat.zero_le, true_and]

theorem within_zero_iff :
    r.Within capacity 0 0 left ↔ r.buffer = [] ∧ left = r.source.parts := by
  unfold Reader.Within
  rw [Nat.zero_sub, Nat.zero_sub, fetched_zero_iff, Nat.add_zero, Nat.le_zero,
    List.length_eq_zero_iff]

/-- Taking items of the head out of the buffer. -/
theorem within_drop_head (hn : n ≤ r.buffer.length) (hhead : n ≤ head) :
    r.Within capacity head body left ↔
      Reader.Within capacity (head - n) body ⟨r.buffer.drop n, r.source⟩ left := by
  unfold Reader.Within
  have hleft : head - n - (r.buffer.length - n) = head - r.buffer.length := by omega
  have hbody : r.buffer.length - n - (head - n) = r.buffer.length - head := by omega
  have hfit : r.buffer.length - n ≤ head - n + body ↔ r.buffer.length ≤ head + body := by omega
  rw [List.length_drop, hleft, hbody, hfit]

/-- Taking items of the body out of the buffer. -/
theorem within_drop_body (hn : n ≤ r.buffer.length) (hbody : n ≤ body) :
    r.Within capacity 0 body left ↔
      Reader.Within capacity 0 (body - n) ⟨r.buffer.drop n, r.source⟩ left := by
  unfold Reader.Within
  have hleft : body - n - (r.buffer.length - n - 0) = body - (r.buffer.length - 0) := by omega
  have hfit : r.buffer.length - n ≤ 0 + (body - n) ↔ r.buffer.length ≤ 0 + body := by omega
  rw [List.length_drop, hleft, hfit, Nat.zero_sub, Nat.zero_sub]

theorem read_eq_ok {s : Source α} (h : takeParts n s.parts = some (data, rest)) :
    s.read n = .ok (data, ⟨rest, s.closed⟩) := by
  rw [Source.read, h]

/-- Filling the buffer, while a read asks for as many items as it holds. -/
theorem exists_fill (hcapacity : 0 < capacity) (hitems : r.items ≠ []) :
    ∃ filled, r.fill capacity = .ok filled ∧ filled.buffer ≠ [] ∧
      ∀ head body left, 0 < head + body → (r.buffer = [] → ask capacity head body = capacity) →
        (r.Within capacity head body left ↔ filled.Within capacity head body left) := by
  obtain ⟨buffer, source⟩ := r
  cases buffer with
  | nil =>
    have hsome : source.parts.flatten ≠ [] := hitems
    obtain ⟨data, rest, htake⟩ := exists_takeParts capacity hsome
    refine ⟨⟨data, ⟨rest, source.closed⟩⟩, ?_, (items_of_takeParts htake).2.2 hcapacity, ?_⟩
    · simp only [Reader.fill, read_eq_ok htake]
    · intro head body left hpos hask
      rw [within_empty_iff]
      exact fetched_iff hpos ((hask rfl).symm ▸ htake)
  | cons a buffer => exact ⟨_, rfl, List.cons_ne_nil a buffer, fun _ _ _ _ _ ↦ Iff.rfl⟩

end Fetched

/-- A message that arrives in parts of its own. -/
theorem fetched_of_own {capacity head body : ℕ} (hcapacity : 0 < capacity)
    {own : List (List α)} (hown : [] ∉ own) (hlength : own.flatten.length = head + body)
    (rest : List (List α)) : Fetched capacity head body (own ++ rest) rest := by
  induction hn : head + body using Nat.strong_induction_on generalizing head body own with
  | _ n ih =>
    cases own with
    | nil =>
      rw [List.flatten_nil, List.length_nil] at hlength
      obtain ⟨rfl, rfl⟩ : head = 0 ∧ body = 0 := by omega
      exact .done rest
    | cons part own =>
      have hpart : part ≠ [] := fun h ↦ hown (h ▸ List.mem_cons_self)
      obtain ⟨a, part, rfl⟩ := List.exists_cons_of_ne_nil hpart
      have hask : 0 < ask capacity head body := by
        unfold ask
        split_ifs <;> omega
      have htake : takeParts (ask capacity head body) ((a :: part) :: own ++ rest) =
          some ((a :: part).take (ask capacity head body),
            putBack ((a :: part).drop (ask capacity head body)) (own ++ rest)) := rfl
      obtain ⟨hitems, -, hne⟩ := items_of_takeParts htake
      have hdata := List.length_pos_iff.mpr (hne hask)
      have hput : putBack ((a :: part).drop (ask capacity head body)) (own ++ rest) =
          putBack ((a :: part).drop (ask capacity head body)) own ++ rest := by
        cases (a :: part).drop (ask capacity head body) <;> rfl
      have hfree : [] ∉ putBack ((a :: part).drop (ask capacity head body)) own := by
        have htail := List.not_mem_of_not_mem_cons hown
        cases (a :: part).drop (ask capacity head body) with
        | nil => exact htail
        | cons b more =>
          intro h
          exact htail ((List.mem_cons.mp h).resolve_left (List.cons_ne_nil b more).symm)
      have hleft := congrArg List.length hitems
      rw [hput] at htake hleft
      simp only [List.cons_append, List.flatten_cons, List.flatten_append, List.length_append,
        List.length_cons] at hleft hlength
      refine .read ?_ htake ?_ ?_
      · omega
      · omega
      · refine ih _ ?_ hfree ?_ rfl
        · omega
        · omega

/-! ### What was sent is found -/

section Sent

variable {capacity : ℕ}

section Line

variable [DecidableEq α] {mark : α} {buffer behind line rest : List α}

/-- A line that ends in the buffer. -/
theorem line_of_mem (h : buffer ++ behind = line ++ mark :: rest) (hmark : mark ∉ line)
    (hmem : mark ∈ buffer) : line = buffer.takeWhile (· ≠ mark) ∧
      buffer = line ++ mark :: (buffer.dropWhile (· ≠ mark)).tail ∧
      rest = (buffer.dropWhile (· ≠ mark)).tail ++ behind := by
  obtain ⟨hfree, hcut⟩ := cut_at_mark hmem
  obtain ⟨hline, hrest⟩ := split_firstMark hmark hfree (h.symm.trans (by
    rw [← List.cons_append, ← List.append_assoc, hcut]))
  refine ⟨hline, ?_, hrest⟩
  rw [hline]
  exact hcut.symm

omit [DecidableEq α] in
/-- A line that goes on behind the buffer. -/
theorem line_of_not_mem (h : buffer ++ behind = line ++ mark :: rest) (hmem : mark ∉ buffer) :
    ∃ more, line = buffer ++ more ∧ behind = more ++ mark :: rest := by
  rcases List.append_eq_append_iff.mp h with ⟨more, hline, hbehind⟩ | ⟨more, hbuffer, hmore⟩
  · exact ⟨more, hline, hbehind⟩
  · cases more with
    | nil => exact ⟨[], by rw [hbuffer, List.append_nil, List.append_nil], hmore.symm⟩
    | cons b more =>
      obtain ⟨rfl, -⟩ := List.cons.inj hmore
      rw [hbuffer] at hmem
      exact absurd (List.mem_append_right line List.mem_cons_self) hmem

end Line

/-- The next line is read off, and its length comes off the head of the message. -/
theorem readUntilFrom_line [DecidableEq α] (hcapacity : 0 < capacity) {mark : α} {fuel : ℕ}
    {r : Reader α} {line rest : List α} (hitems : r.items = line ++ mark :: rest)
    (hmark : mark ∉ line) (hfuel : r.items.length < fuel) :
    ∃ next, r.readUntilFrom capacity mark fuel = .ok (line ++ [mark], next) ∧ next.items = rest ∧
      ∀ head body left, line.length + 1 ≤ head → (r.Within capacity head body left ↔
        next.Within capacity (head - (line.length + 1)) body left) := by
  induction fuel generalizing r line with
  | zero => exact absurd hfuel (Nat.not_lt_zero _)
  | succ fuel ih =>
    have hsome : r.items ≠ [] := by
      rw [hitems]
      exact List.append_ne_nil_of_right_ne_nil _ (List.cons_ne_nil _ _)
    obtain ⟨filled, hfill, hbuffer, hwithin⟩ := exists_fill hcapacity hsome
    have hfilled : filled.buffer ++ filled.source.items = line ++ mark :: rest :=
      (fill_items hfill).trans hitems
    have hasked (head body : ℕ) (left : List (List α)) (hhead : line.length + 1 ≤ head) :
        r.Within capacity head body left ↔ filled.Within capacity head body left :=
      hwithin head body left (by omega) fun _ ↦ if_neg fun h ↦ by omega
    unfold Reader.readUntilFrom
    simp only [hfill]
    rw [if_neg hbuffer]
    by_cases hmem : mark ∈ filled.buffer
    · rw [if_pos hmem]
      obtain ⟨hline, hcut, hrest⟩ := line_of_mem hfilled hmark hmem
      have hdrop : filled.buffer.drop (line.length + 1) =
          (filled.buffer.dropWhile (· ≠ mark)).tail := by
        conv_lhs => rw [hcut]
        simp [List.drop_append]
      refine ⟨⟨(filled.buffer.dropWhile (· ≠ mark)).tail, filled.source⟩, by rw [← hline],
        hrest.symm, fun head body left hhead ↦ ?_⟩
      rw [hasked head body left hhead, ← hdrop]
      refine within_drop_head ?_ hhead
      rw [hcut, List.length_append, List.length_cons]
      omega
    · rw [if_neg hmem]
      -- the whole buffer belongs to the line
      obtain ⟨more, rfl, hsource⟩ := line_of_not_mem hfilled hmem
      have hshorter : filled.source.items.length < fuel := by
        have hlength := congrArg List.length (fill_items hfill)
        have hpos := List.length_pos_iff.mpr hbuffer
        rw [Reader.items, List.length_append] at hlength
        omega
      obtain ⟨next, hread, hnext, hreads⟩ := ih (r := ⟨[], filled.source⟩) hsource
        (fun h ↦ hmark (List.mem_append_right _ h)) hshorter
      refine ⟨next, ?_, hnext, fun head body left hhead ↦ ?_⟩
      · simp only [hread, List.append_assoc]
      · have hlength : (filled.buffer ++ more).length = filled.buffer.length + more.length :=
          List.length_append
        have hempty : filled.Within capacity head body left ↔
            Reader.Within capacity (head - filled.buffer.length) body ⟨[], filled.source⟩ left := by
          rw [within_drop_head le_rfl (by omega), List.drop_length]
        rw [hasked head body left hhead, hempty, hreads _ _ _ (by omega)]
        have hsub : head - filled.buffer.length - (more.length + 1) =
            head - ((filled.buffer ++ more).length + 1) := by omega
        rw [hsub]

theorem readUntil_line [DecidableEq α] (hcapacity : 0 < capacity) {mark : α} {r : Reader α}
    {line rest : List α} (hitems : r.items = line ++ mark :: rest) (hmark : mark ∉ line) :
    ∃ next, r.readUntil capacity mark = .ok (line ++ [mark], next) ∧ next.items = rest ∧
      ∀ head body left, line.length + 1 ≤ head → (r.Within capacity head body left ↔
        next.Within capacity (head - (line.length + 1)) body left) :=
  readUntilFrom_line hcapacity hitems hmark (Nat.lt_succ_self _)

/-- One read for the body of a message. -/
theorem exists_read (hcapacity : 0 < capacity) {n : ℕ} (hpos : 0 < n) {r : Reader α}
    (hitems : r.items ≠ []) :
    ∃ a data next, r.read capacity n = .ok (a :: data, next) ∧ ∀ left,
      (r.Within capacity 0 n left ↔ next.Within capacity 0 (n - (a :: data).length) left) := by
  by_cases hpast : r.buffer = [] ∧ capacity ≤ n
  · obtain ⟨buffer, source⟩ := r
    obtain ⟨rfl, hle⟩ := hpast
    have hsome : source.parts.flatten ≠ [] := hitems
    obtain ⟨data, rest, htake⟩ := exists_takeParts n hsome
    obtain ⟨-, hlength, hne⟩ := items_of_takeParts htake
    obtain ⟨a, data, rfl⟩ := List.exists_cons_of_ne_nil (hne hpos)
    refine ⟨a, data, ⟨[], ⟨rest, source.closed⟩⟩, ?_, fun left ↦ ?_⟩
    · unfold Reader.read
      rw [if_pos ⟨rfl, hle⟩]
      simp only [read_eq_ok htake]
    · have hask : ask capacity 0 n = n := if_pos ⟨rfl, hle⟩
      rw [within_empty_iff, within_empty_iff, fetched_iff (by omega) (hask.symm ▸ htake),
        Nat.zero_sub, Nat.sub_zero, Nat.zero_add, and_iff_right hlength]
  · obtain ⟨filled, hfill, hbuffer, hwithin⟩ := exists_fill hcapacity hitems
    obtain ⟨n, rfl⟩ : ∃ m, n = m + 1 := ⟨n - 1, by omega⟩
    obtain ⟨a, buffer, hcons⟩ := List.exists_cons_of_ne_nil hbuffer
    refine ⟨a, buffer.take n, ⟨buffer.drop n, filled.source⟩, ?_, fun left ↦ ?_⟩
    · unfold Reader.read
      rw [if_neg hpast]
      simp only [hfill, hcons, List.take_succ_cons, List.drop_succ_cons]
    · have hask : r.buffer = [] → ask capacity 0 (n + 1) = capacity :=
        fun hempty ↦ if_neg fun h ↦ hpast ⟨hempty, h.2⟩
      have hlength : (a :: buffer.take n).length = min (n + 1) filled.buffer.length := by
        rw [hcons, List.length_cons, List.length_cons, List.length_take]
        omega
      have hdrop : filled.buffer.drop (a :: buffer.take n).length = buffer.drop n := by
        rw [hcons, List.length_cons, List.drop_succ_cons, List.length_take]
        rcases Nat.le_total n buffer.length with hle | hle
        · rw [Nat.min_eq_left hle]
        · rw [Nat.min_eq_right hle, List.drop_length, List.drop_of_length_le hle]
      rw [hwithin 0 (n + 1) left (by omega) hask,
        within_drop_body (n := (a :: buffer.take n).length) (by omega) (by omega), hdrop]

/-- A body of known length is read off. -/
theorem readExactFrom_append (hcapacity : 0 < capacity) {fuel n : ℕ} {r : Reader α}
    {data rest : List α} (hitems : r.items = data ++ rest) (hlength : data.length = n)
    (hfuel : n ≤ fuel) :
    ∃ next, r.readExactFrom capacity fuel n = .ok (data, next) ∧ next.items = rest ∧
      ∀ left, r.Within capacity 0 n left ↔ next.buffer = [] ∧ left = next.source.parts := by
  induction fuel generalizing n r data with
  | zero =>
    obtain rfl := Nat.le_zero.mp hfuel
    obtain rfl := List.length_eq_zero_iff.mp hlength
    exact ⟨r, rfl, hitems, fun left ↦ within_zero_iff⟩
  | succ fuel ih =>
    cases n with
    | zero =>
      obtain rfl := List.length_eq_zero_iff.mp hlength
      exact ⟨r, rfl, hitems, fun left ↦ within_zero_iff⟩
    | succ n =>
      have hsome : r.items ≠ [] := by
        rw [hitems]
        refine List.append_ne_nil_of_left_ne_nil (List.ne_nil_of_length_pos ?_) rest
        omega
      obtain ⟨a, got, filled, hread, hwithin⟩ := exists_read hcapacity (Nat.succ_pos n) hsome
      obtain ⟨hgot, hle⟩ := reader_read_items hread
      obtain ⟨more, rfl⟩ : a :: got <+: data := by
        refine List.prefix_of_prefix_length_le ⟨filled.items, hgot⟩ ⟨rest, hitems.symm⟩ ?_
        omega
      rw [hitems, List.append_assoc, List.append_cancel_left_eq] at hgot
      rw [List.length_append] at hlength
      have hpos : 0 < (a :: got).length := Nat.succ_pos _
      obtain ⟨next, hmore, hnext, hleft⟩ :=
        ih hgot (n := n + 1 - (a :: got).length) (by omega) (by omega)
      refine ⟨next, ?_, hnext, fun left ↦ (hwithin left).trans (hleft left)⟩
      unfold Reader.readExactFrom
      simp only [hread, hmore]

theorem readExact_append (hcapacity : 0 < capacity) {n : ℕ} {r : Reader α} {data rest : List α}
    (hitems : r.items = data ++ rest) (hlength : data.length = n) :
    ∃ next, r.readExact capacity n = .ok (data, next) ∧ next.items = rest ∧
      ∀ left, r.Within capacity 0 n left ↔ next.buffer = [] ∧ left = next.source.parts :=
  readExactFrom_append hcapacity hitems hlength le_rfl

end Sent

end Lithair.Lib.Buffered

import Mathlib.Data.List.Induction
import Mathlib.Data.List.Nodup
import TiledTensor.TaskGraph

/-!
# Conflicts between unfinished tasks

Two tasks conflict if they share a buffer that at least one of them writes; scratch memory does not
count.  The graph keeps far less than this relation: for each buffer only the last writer and the
readers since.  A *roster* lists the unfinished tasks with their accesses in the order of insertion,
and `TaskGraph.Usage.of` computes from it what the graph has to know about one buffer.

The lemmas on `Usage.of` say why so little is enough: a writer that is no longer recorded was
overtaken by a later writer, which conflicts with it, and so does a reader that is no longer
recorded.
-/

namespace TiledTensor

/-! ## Order in a list -/

/-- `x` stands before `y`. -/
def Before {β : Type} : List β → β → β → Prop
  | [], _, _ => False
  | z :: l, x, y => (z = x ∧ y ∈ l) ∨ Before l x y

namespace Before

variable {β : Type} {l : List β} {x y : β}

instance decidable [DecidableEq β] : (l : List β) → (x y : β) → Decidable (Before l x y)
  | [], _, _ => .isFalse id
  | z :: l, x, y =>
    have := decidable l x y
    inferInstanceAs (Decidable ((z = x ∧ y ∈ l) ∨ Before l x y))

theorem mem_left (h : Before l x y) : x ∈ l := by
  induction l with
  | nil => exact h.elim
  | cons z l ih =>
    rcases h with ⟨rfl, _⟩ | h
    · exact List.mem_cons_self
    · exact List.mem_cons_of_mem _ (ih h)

theorem mem_right (h : Before l x y) : y ∈ l := by
  induction l with
  | nil => exact h.elim
  | cons z l ih =>
    rcases h with ⟨_, hy⟩ | h
    · exact List.mem_cons_of_mem _ hy
    · exact List.mem_cons_of_mem _ (ih h)

/-- The last element stands after all others. -/
theorem append_singleton_iff {z : β} :
    Before (l ++ [z]) x y ↔ Before l x y ∨ (x ∈ l ∧ y = z) := by
  induction l with
  | nil => simp [Before]
  | cons a l ih =>
    simp only [List.cons_append, Before, ih, List.mem_append, List.mem_cons,
      List.not_mem_nil, or_false]
    constructor
    · rintro (⟨rfl, hy | rfl⟩ | h | ⟨hx, rfl⟩)
      · exact Or.inl (Or.inl ⟨rfl, hy⟩)
      · exact Or.inr ⟨Or.inl rfl, rfl⟩
      · exact Or.inl (Or.inr h)
      · exact Or.inr ⟨Or.inr hx, rfl⟩
    · rintro ((⟨rfl, hy⟩ | h) | ⟨rfl | hx, rfl⟩)
      · exact Or.inl ⟨rfl, Or.inl hy⟩
      · exact Or.inr (Or.inl h)
      · exact Or.inl ⟨rfl, Or.inr rfl⟩
      · exact Or.inr (Or.inr ⟨hx, rfl⟩)

theorem filter_iff {p : β → Bool} :
    Before (l.filter p) x y ↔ Before l x y ∧ p x = true ∧ p y = true := by
  induction l with
  | nil => simp [Before]
  | cons a l ih =>
    by_cases ha : p a = true
    · rw [List.filter_cons_of_pos ha]
      simp only [Before, ih, List.mem_filter]
      constructor
      · rintro (⟨rfl, hy, hpy⟩ | ⟨h, hp⟩)
        · exact ⟨Or.inl ⟨rfl, hy⟩, ha, hpy⟩
        · exact ⟨Or.inr h, hp⟩
      · rintro ⟨⟨rfl, hy⟩ | h, hpx, hpy⟩
        · exact Or.inl ⟨rfl, hy, hpy⟩
        · exact Or.inr ⟨h, hpx, hpy⟩
    · rw [List.filter_cons_of_neg ha, ih]
      constructor
      · rintro ⟨h, hp⟩
        exact ⟨Or.inr h, hp⟩
      · rintro ⟨⟨rfl, _⟩ | h, hpx, hpy⟩
        · exact absurd hpx ha
        · exact ⟨h, hpx, hpy⟩

/-- What stands on the left of a split stands before what stands on the right. -/
theorem of_append {l₁ l₂ : List β} (hx : x ∈ l₁) (hy : y ∈ l₂) : Before (l₁ ++ l₂) x y := by
  induction l₁ with
  | nil => simp at hx
  | cons a l ih =>
    rcases List.mem_cons.mp hx with rfl | hx
    · exact Or.inl ⟨rfl, List.mem_append_right _ hy⟩
    · exact Or.inr (ih hx)

theorem map {γ : Type} (f : β → γ) (h : Before l x y) : Before (l.map f) (f x) (f y) := by
  induction l with
  | nil => exact h.elim
  | cons z l ih =>
    rcases h with ⟨rfl, hy⟩ | h
    · exact Or.inl ⟨rfl, List.mem_map_of_mem hy⟩
    · exact Or.inr (ih h)

/-- In a list that is sorted strictly, the order of the list is the given one. -/
theorem rel {r : β → β → Prop} (hs : l.Pairwise r) (h : Before l x y) : r x y := by
  induction l with
  | nil => exact h.elim
  | cons z l ih =>
    rw [List.pairwise_cons] at hs
    rcases h with ⟨rfl, hy⟩ | h
    · exact hs.1 y hy
    · exact ih hs.2 h

theorem total (hx : x ∈ l) (hy : y ∈ l) : x = y ∨ Before l x y ∨ Before l y x := by
  induction l with
  | nil => simp at hx
  | cons z l ih =>
    rcases List.mem_cons.mp hx with rfl | hx'
    · rcases List.mem_cons.mp hy with rfl | hy'
      · exact Or.inl rfl
      · exact Or.inr (Or.inl (Or.inl ⟨rfl, hy'⟩))
    · rcases List.mem_cons.mp hy with rfl | hy'
      · exact Or.inr (Or.inr (Or.inl ⟨rfl, hx'⟩))
      · rcases ih hx' hy' with h | h | h
        · exact Or.inl h
        · exact Or.inr (Or.inl (Or.inr h))
        · exact Or.inr (Or.inr (Or.inr h))

end Before

/-! ## Conflicts -/

/-- One of two accesses to the same buffer has to wait for the other. -/
def Access.Clash (a b : Access) : Prop :=
  a ≠ .scratch ∧ b ≠ .scratch ∧ (a.writes = true ∨ b.writes = true)

instance (a b : Access) : Decidable (a.Clash b) :=
  inferInstanceAs (Decidable (a ≠ .scratch ∧ b ≠ .scratch ∧ (a.writes = true ∨ b.writes = true)))

theorem Access.ne_scratch_of_writes {a : Access} (h : a.writes = true) : a ≠ .scratch := by
  rintro rfl
  cases h

theorem TaskGraph.mem_touched_iff {accesses : List (HandleId × Access)} {h : HandleId} :
    h ∈ touched accesses ↔ ∃ a, (h, a) ∈ accesses ∧ a ≠ .scratch := by
  simp [touched]

/-- Two lists of accesses share a buffer that at least one of them writes. -/
def Conflict (xs ys : List (HandleId × Access)) : Prop :=
  ∃ h a b, (h, a) ∈ xs ∧ (h, b) ∈ ys ∧ a.Clash b

theorem conflict_iff {xs ys : List (HandleId × Access)} :
    Conflict xs ys ↔ ∃ e ∈ xs, ∃ f ∈ ys, e.1 = f.1 ∧ e.2.Clash f.2 := by
  constructor
  · rintro ⟨h, a, b, hx, hy, hab⟩
    exact ⟨(h, a), hx, (h, b), hy, rfl, hab⟩
  · rintro ⟨⟨h, a⟩, hx, ⟨k, b⟩, hy, rfl, hab⟩
    exact ⟨h, a, b, hx, hy, hab⟩

instance (xs ys : List (HandleId × Access)) : Decidable (Conflict xs ys) :=
  decidable_of_iff _ conflict_iff.symm

theorem Conflict.symm {xs ys : List (HandleId × Access)} (h : Conflict xs ys) : Conflict ys xs := by
  obtain ⟨k, a, b, hx, hy, ha, hb, hw⟩ := h
  exact ⟨k, b, a, hy, hx, hb, ha, hw.symm⟩

/-- A write conflicts with every other access to its buffer. -/
theorem Conflict.of_write {xs ys : List (HandleId × Access)} {h : HandleId} {a b : Access}
    (hx : (h, a) ∈ xs) (hy : (h, b) ∈ ys) (ha : a.writes = true) (hb : b ≠ .scratch) :
    Conflict xs ys :=
  ⟨h, a, b, hx, hy, Access.ne_scratch_of_writes ha, hb, Or.inl ha⟩

/-- Unfinished tasks with their accesses, in the order of insertion. -/
abbrev Roster := List (TaskId × List (HandleId × Access))

namespace TaskGraph.Usage

/-- The users of buffer `h` after a task has entered its accesses. -/
def after (u : Usage) (id : TaskId) (h : HandleId) (accesses : List (HandleId × Access)) : Usage :=
  accesses.foldl (fun u e => if e.1 = h ∧ e.2 ≠ .scratch then (u.access id e.2).2 else u) u

/-- The users of buffer `h` that are left of a roster. -/
def of (h : HandleId) (roster : Roster) : Usage :=
  roster.foldl (fun u e => u.after e.1 h e.2) {}

/-- How a buffer stands in the usage table: not at all if it has no user. -/
def entry (u : Usage) : Option Usage := if u = {} then none else some u

@[simp] theorem getD_entry (u : Usage) : u.entry.getD {} = u := by
  by_cases h : u = {} <;> simp [entry, h]

theorem of_append_singleton (h : HandleId) (roster : Roster)
    (e : TaskId × List (HandleId × Access)) :
    of h (roster ++ [e]) = (of h roster).after e.1 h e.2 := by
  simp [of]

theorem after_cons (u : Usage) (id : TaskId) (h : HandleId) (e : HandleId × Access)
    (accesses : List (HandleId × Access)) :
    u.after id h (e :: accesses) =
      (if e.1 = h ∧ e.2 ≠ .scratch then (u.access id e.2).2 else u).after id h accesses := rfl

theorem access_of_writes (u : Usage) (id : TaskId) {a : Access} (ha : a.writes = true) :
    u.access id a = (u.writer.toList ++ u.readers, ⟨some id, []⟩) := by
  cases a <;> first | rfl | cases ha

theorem access_read (u : Usage) (id : TaskId) :
    u.access id .read = (u.writer.toList, { u with readers := u.readers ++ [id] }) := rfl

theorem access_ne_empty (u : Usage) (id : TaskId) {a : Access} (ha : a ≠ .scratch) :
    (u.access id a).2 ≠ {} := by
  cases a with
  | read => simp [access]
  | write => simp [access]
  | readWrite => simp [access]
  | scratch => exact absurd rfl ha

/-- An access that is not scratch reads or writes. -/
theorem eq_read_of_not_writes {a : Access} (hs : a ≠ .scratch) (hw : ¬a.writes = true) :
    a = .read := by
  cases a with
  | read => rfl
  | write => exact absurd rfl hw
  | readWrite => exact absurd rfl hw
  | scratch => exact absurd rfl hs

/-! ### One task -/

/-- A task that does not touch a buffer changes nothing about its users. -/
theorem after_of_untouched {u : Usage} {id : TaskId} {h : HandleId}
    {accesses : List (HandleId × Access)} (hn : ∀ a, (h, a) ∈ accesses → a = .scratch) :
    u.after id h accesses = u := by
  induction accesses with
  | nil => rfl
  | cons e accesses ih =>
    have hc : ¬(e.1 = h ∧ e.2 ≠ .scratch) := fun hc =>
      hc.2 (hn e.2 (by rw [← hc.1]; exact List.mem_cons_self))
    rw [after_cons, if_neg hc]
    exact ih fun a ha => hn a (List.mem_cons_of_mem _ ha)

/-- After a task that writes a buffer the writer is the task. -/
theorem after_writer_of_write {u : Usage} {id : TaskId} {h : HandleId}
    {accesses : List (HandleId × Access)}
    (hw : u.writer = some id ∨ ∃ a, (h, a) ∈ accesses ∧ a.writes = true) :
    (u.after id h accesses).writer = some id := by
  induction accesses generalizing u with
  | nil =>
    rcases hw with hw | ⟨a, ha, -⟩
    · exact hw
    · simp at ha
  | cons e accesses ih =>
    rw [after_cons]
    by_cases he : e.1 = h ∧ e.2.writes = true
    · rw [if_pos ⟨he.1, Access.ne_scratch_of_writes he.2⟩, access_of_writes u id he.2]
      exact ih (Or.inl rfl)
    · have hw' : u.writer = some id ∨ ∃ a, (h, a) ∈ accesses ∧ a.writes = true := by
        rcases hw with hw | ⟨a, ha, haw⟩
        · exact Or.inl hw
        · rcases List.mem_cons.mp ha with rfl | ha
          · exact absurd ⟨rfl, haw⟩ he
          · exact Or.inr ⟨a, ha, haw⟩
      by_cases hc : e.1 = h ∧ e.2 ≠ .scratch
      · rw [if_pos hc, eq_read_of_not_writes hc.2 fun hx => he ⟨hc.1, hx⟩, access_read]
        exact ih hw'
      · rw [if_neg hc]
        exact ih hw'

/-- A task that does not write a buffer is entered behind its readers, once for every read. -/
theorem after_of_no_write {u : Usage} {id : TaskId} {h : HandleId}
    {accesses : List (HandleId × Access)} (hn : ∀ a, (h, a) ∈ accesses → ¬a.writes = true) :
    u.after id h accesses =
      { u with readers := u.readers ++ List.replicate (accesses.count (h, .read)) id } := by
  induction accesses generalizing u with
  | nil => simp [after]
  | cons e accesses ih =>
    have hr : ∀ a, (h, a) ∈ accesses → ¬a.writes = true :=
      fun a ha => hn a (List.mem_cons_of_mem _ ha)
    rw [after_cons, ih hr]
    by_cases hc : e.1 = h ∧ e.2 ≠ .scratch
    · have hw : ¬e.2.writes = true := hn e.2 (by rw [← hc.1]; exact List.mem_cons_self)
      have he : e = (h, .read) := Prod.ext hc.1 (eq_read_of_not_writes hc.2 hw)
      rw [if_pos hc, he, access_read, List.count_cons_self, List.replicate_succ, List.append_assoc]
      rfl
    · rw [if_neg hc, List.count_cons_of_ne]
      rintro rfl
      exact hc ⟨rfl, nofun⟩

/-- A task that does not write a buffer leaves the writer as it is. -/
theorem after_writer_of_no_write {u : Usage} {id : TaskId} {h : HandleId}
    {accesses : List (HandleId × Access)} (hn : ∀ a, (h, a) ∈ accesses → ¬a.writes = true) :
    (u.after id h accesses).writer = u.writer := by
  rw [after_of_no_write hn]

/-- Readers from before a task stay recorded only if the task does not write. -/
theorem mem_readers_of_mem_after {u : Usage} {id d : TaskId} {h : HandleId}
    {accesses : List (HandleId × Access)} (hd : d ∈ (u.after id h accesses).readers) :
    d = id ∨ (d ∈ u.readers ∧ ∀ a, (h, a) ∈ accesses → ¬a.writes = true) := by
  induction accesses generalizing u with
  | nil => exact Or.inr ⟨hd, by simp⟩
  | cons e accesses ih =>
    rw [after_cons] at hd
    by_cases hc : e.1 = h ∧ e.2 ≠ .scratch
    · rw [if_pos hc] at hd
      by_cases hw : e.2.writes = true
      · rw [access_of_writes u id hw] at hd
        rcases ih hd with hd | ⟨hd, -⟩
        · exact Or.inl hd
        · simp at hd
      · have he : e.2 = .read := eq_read_of_not_writes hc.2 hw
        rw [he, access_read] at hd
        rcases ih hd with hd | ⟨hd, hn⟩
        · exact Or.inl hd
        · rcases List.mem_append.mp hd with hd | hd
          · refine Or.inr ⟨hd, fun a ha => ?_⟩
            rcases List.mem_cons.mp ha with rfl | ha
            · exact hw
            · exact hn a ha
          · exact Or.inl (List.mem_singleton.mp hd)
    · rw [if_neg hc] at hd
      rcases ih hd with hd | ⟨hd, hn⟩
      · exact Or.inl hd
      · refine Or.inr ⟨hd, fun a ha => ?_⟩
        rcases List.mem_cons.mp ha with rfl | ha
        · exact fun hw => hc ⟨rfl, Access.ne_scratch_of_writes hw⟩
        · exact hn a ha

/-- A task that does not write a buffer keeps the readers, and is one of them if it reads. -/
theorem mem_after_readers {u : Usage} {id d : TaskId} {h : HandleId}
    {accesses : List (HandleId × Access)} (hn : ∀ a, (h, a) ∈ accesses → ¬a.writes = true)
    (hd : d ∈ u.readers ∨ (d = id ∧ (h, .read) ∈ accesses)) :
    d ∈ (u.after id h accesses).readers := by
  rw [after_of_no_write hn]
  rcases hd with hd | ⟨rfl, hd⟩
  · exact List.mem_append_left _ hd
  · refine List.mem_append_right _ (List.mem_replicate.mpr ⟨?_, rfl⟩)
    exact Nat.pos_iff_ne_zero.mp (List.count_pos_iff.mpr hd)

/-! ### A roster -/

/-- Whoever is recorded as writer is in the roster and writes the buffer. -/
theorem exists_of_writer {h : HandleId} {roster : Roster} {d : TaskId}
    (hd : (of h roster).writer = some d) :
    ∃ y ∈ roster, y.1 = d ∧ ∃ a, (h, a) ∈ y.2 ∧ a.writes = true := by
  induction roster using List.reverseRecOn with
  | nil => simp [of] at hd
  | append_singleton roster e ih =>
    rw [of_append_singleton] at hd
    by_cases hw : ∃ a, (h, a) ∈ e.2 ∧ a.writes = true
    · rw [after_writer_of_write (Or.inr hw), Option.some.injEq] at hd
      exact ⟨e, by simp, hd, hw⟩
    · rw [after_writer_of_no_write fun a ha haw => hw ⟨a, ha, haw⟩] at hd
      obtain ⟨y, hy, hyd⟩ := ih hd
      exact ⟨y, List.mem_append_left _ hy, hyd⟩

/-- Whoever is recorded as reader is in the roster and uses the buffer. -/
theorem exists_of_mem_readers {h : HandleId} {roster : Roster} {d : TaskId}
    (hd : d ∈ (of h roster).readers) :
    ∃ y ∈ roster, y.1 = d ∧ ∃ a, (h, a) ∈ y.2 ∧ a ≠ .scratch := by
  induction roster using List.reverseRecOn with
  | nil => simp [of] at hd
  | append_singleton roster e ih =>
    rw [of_append_singleton] at hd
    by_cases hu : ∃ a, (h, a) ∈ e.2 ∧ a ≠ .scratch
    · rcases mem_readers_of_mem_after hd with hd | ⟨hd, -⟩
      · exact ⟨e, by simp, hd.symm, hu⟩
      · obtain ⟨y, hy, hyd⟩ := ih hd
        exact ⟨y, List.mem_append_left _ hy, hyd⟩
    · rw [after_of_untouched fun a ha => by_contra fun hs => hu ⟨a, ha, hs⟩] at hd
      obtain ⟨y, hy, hyd⟩ := ih hd
      exact ⟨y, List.mem_append_left _ hy, hyd⟩

/-- A writer of the roster is recorded, or was overtaken by the writer that is. -/
theorem writer_of_write {h : HandleId} {roster : Roster} {x : TaskId × List (HandleId × Access)}
    (hx : x ∈ roster) {a : Access} (ha : (h, a) ∈ x.2) (hw : a.writes = true) :
    ∃ y ∈ roster, (of h roster).writer = some y.1 ∧ (y = x ∨ Before roster x y) ∧
      ∃ b, (h, b) ∈ y.2 ∧ b.writes = true := by
  induction roster using List.reverseRecOn with
  | nil => simp at hx
  | append_singleton roster e ih =>
    rw [of_append_singleton]
    by_cases he : ∃ b, (h, b) ∈ e.2 ∧ b.writes = true
    · refine ⟨e, by simp, after_writer_of_write (Or.inr he), ?_, he⟩
      rcases List.mem_append.mp hx with hx | hx
      · exact Or.inr (Before.append_singleton_iff.mpr (Or.inr ⟨hx, rfl⟩))
      · exact Or.inl (List.mem_singleton.mp hx).symm
    · have hxr : x ∈ roster := by
        rcases List.mem_append.mp hx with hx | hx
        · exact hx
        · rw [List.mem_singleton.mp hx] at ha
          exact absurd ⟨a, ha, hw⟩ he
      obtain ⟨y, hy, hwr, hyx, hyw⟩ := ih hxr
      rw [after_writer_of_no_write fun b hb hbw => he ⟨b, hb, hbw⟩]
      exact ⟨y, List.mem_append_left _ hy, hwr,
        hyx.imp_right fun hb => Before.append_singleton_iff.mpr (Or.inl hb), hyw⟩

/-- A user of the roster is recorded as a reader, or a writer that is recorded came after it. -/
theorem reader_or_writer {h : HandleId} {roster : Roster} {x : TaskId × List (HandleId × Access)}
    (hx : x ∈ roster) {a : Access} (ha : (h, a) ∈ x.2) (hs : a ≠ .scratch) :
    x.1 ∈ (of h roster).readers ∨
      ∃ y ∈ roster, (of h roster).writer = some y.1 ∧ (y = x ∨ Before roster x y) ∧
        ∃ b, (h, b) ∈ y.2 ∧ b.writes = true := by
  induction roster using List.reverseRecOn with
  | nil => simp at hx
  | append_singleton roster e ih =>
    rw [of_append_singleton]
    by_cases he : ∃ b, (h, b) ∈ e.2 ∧ b.writes = true
    · refine Or.inr ⟨e, by simp, after_writer_of_write (Or.inr he), ?_, he⟩
      rcases List.mem_append.mp hx with hx | hx
      · exact Or.inr (Before.append_singleton_iff.mpr (Or.inr ⟨hx, rfl⟩))
      · exact Or.inl (List.mem_singleton.mp hx).symm
    · have hn : ∀ b, (h, b) ∈ e.2 → ¬b.writes = true := fun b hb hbw => he ⟨b, hb, hbw⟩
      rcases List.mem_append.mp hx with hx | hx
      · rcases ih hx with hr | ⟨y, hy, hwr, hyx, hyw⟩
        · exact Or.inl (mem_after_readers hn (Or.inl hr))
        · rw [after_writer_of_no_write hn]
          exact Or.inr ⟨y, List.mem_append_left _ hy, hwr,
            hyx.imp_right fun hb => Before.append_singleton_iff.mpr (Or.inl hb), hyw⟩
      · rw [List.mem_singleton.mp hx] at ha ⊢
        rw [eq_read_of_not_writes hs (hn a ha)] at ha
        exact Or.inl (mem_after_readers hn (Or.inr ⟨rfl, ha⟩))

end TaskGraph.Usage

end TiledTensor

import TiledTensor.Proofs.Actions
import TiledTensor.Proofs.Buffers

/-!
# Programs

All ranks make the same transfers and flushes in the same order, and each adds calls of its own
between them.  A *line* is a call that all ranks make alike; the number of lines before a call says
where in the common program it stands.

Most lines mean nothing to most ranks.  `copyLine` follows through the lines which transfer gave a
rank the copy of a tile that it holds; from it alone a rank knows whether it has to queue a task for
a line.  `Node.duties` lists what a rank queues tasks for.
-/

namespace TiledTensor

/-! ## Lines -/

/-- A call that all ranks make alike. -/
inductive Line
  | transfer (h : HandleId) (target : Rank)
  | flush (h : HandleId)
  deriving DecidableEq

/-- Which line rank `r` has its copy of tile `h` from, after line `i`; nobody copies to the
owner. -/
def Line.pass (owner : Rank) (h : HandleId) (r : Rank) (i : Nat) (held : Option Nat) :
    Line → Option Nat
  | transfer k t => if k = h ∧ t = r ∧ r ≠ owner ∧ held = none then some i else held
  | flush k => if k = h then none else held

/-- Which line rank `r` has its copy of tile `h` from, after lines numbered from `i` on. -/
def copyFrom (owner : Rank) (h : HandleId) (r : Rank) : Nat → Option Nat → List Line → Option Nat
  | _, held, [] => held
  | i, held, l :: ls => copyFrom owner h r (i + 1) (l.pass owner h r i held) ls

/-- Which line rank `r` has its copy of tile `h` from. -/
def copyLine (owner : Rank) (h : HandleId) (r : Rank) (ls : List Line) : Option Nat :=
  copyFrom owner h r 0 none ls

section

variable {owner : Rank} {h : HandleId} {r : Rank} {ls : List Line}

theorem copyFrom_append_singleton (i : Nat) (held : Option Nat) (l : Line) :
    copyFrom owner h r i held (ls ++ [l]) =
      l.pass owner h r (i + ls.length) (copyFrom owner h r i held ls) := by
  induction ls generalizing i held with
  | nil => rfl
  | cons m ls ih =>
    rw [List.cons_append, copyFrom, ih, copyFrom, List.length_cons, Nat.add_right_comm, Nat.add_assoc]

theorem copyLine_append_singleton (l : Line) :
    copyLine owner h r (ls ++ [l]) = l.pass owner h r ls.length (copyLine owner h r ls) := by
  unfold copyLine
  rw [copyFrom_append_singleton, Nat.zero_add]

/-- A copy comes from the first transfer since there was none, and has not been flushed since. -/
theorem copyLine_eq_some {i : Nat} (hi : copyLine owner h r ls = some i) :
    ls[i]? = some (.transfer h r) ∧ r ≠ owner ∧ copyLine owner h r (ls.take i) = none ∧
      ∀ j, i < j → ls[j]? ≠ some (.flush h) := by
  induction ls using List.reverseRecOn with
  | nil => cases hi
  | append_singleton ls l ih =>
    rw [copyLine_append_singleton] at hi
    have hkeep : copyLine owner h r ls = some i → l ≠ .flush h →
        (ls ++ [l])[i]? = some (.transfer h r) ∧ r ≠ owner ∧
          copyLine owner h r ((ls ++ [l]).take i) = none ∧
          ∀ j, i < j → (ls ++ [l])[j]? ≠ some (.flush h) := by
      intro hc hl
      obtain ⟨hget, hr, hnone, hno⟩ := ih hc
      have hlt : i < ls.length := (List.getElem?_eq_some_iff.mp hget).1
      rw [List.getElem?_append_left hlt, List.take_append_of_le_length (Nat.le_of_lt hlt)]
      refine ⟨hget, hr, hnone, ?_⟩
      intro j hj hf
      rcases Nat.lt_trichotomy j ls.length with hjl | rfl | hjl
      · rw [List.getElem?_append_left hjl] at hf
        exact hno j hj hf
      · rw [List.getElem?_concat_length, Option.some.injEq] at hf
        exact hl hf
      · rw [List.getElem?_eq_none (by simp; omega)] at hf
        cases hf
    cases l with
    | flush k =>
      dsimp only [Line.pass] at hi
      split at hi
      · cases hi
      · rename_i hk
        exact hkeep hi fun he => hk (Line.flush.inj he)
    | transfer k t =>
      dsimp only [Line.pass] at hi
      split at hi
      · rename_i hk
        obtain ⟨rfl, rfl, hr, hnone⟩ := hk
        obtain rfl := Option.some.inj hi
        rw [List.getElem?_concat_length, List.take_left]
        refine ⟨rfl, hr, hnone, ?_⟩
        intro j hj hf
        rw [List.getElem?_eq_none (by simp; omega)] at hf
        cases hf
      · exact hkeep hi (by simp)

/-- Where there is no copy, every earlier transfer has been flushed since. -/
theorem exists_flush_of_copyLine_eq_none (hn : copyLine owner h r ls = none) (hr : r ≠ owner)
    {j : Nat} (hj : ls[j]? = some (.transfer h r)) : ∃ k, j < k ∧ ls[k]? = some (.flush h) := by
  induction ls using List.reverseRecOn with
  | nil => cases hj
  | append_singleton ls l ih =>
    rw [copyLine_append_singleton] at hn
    have hlast : (ls ++ [l])[ls.length]? = some l := List.getElem?_concat_length
    rcases Nat.lt_trichotomy j ls.length with hjl | rfl | hjl
    · rw [List.getElem?_append_left hjl] at hj
      have hprev : copyLine owner h r ls = none → ∃ k, j < k ∧ (ls ++ [l])[k]? = some (.flush h) := by
        intro hc
        obtain ⟨k, hk, hf⟩ := ih hc hj
        refine ⟨k, hk, ?_⟩
        rw [List.getElem?_append_left (List.getElem?_eq_some_iff.mp hf).1, hf]
      cases l with
      | flush k =>
        by_cases hk : k = h
        · exact ⟨ls.length, hjl, hk ▸ hlast⟩
        · rw [Line.pass, if_neg hk] at hn
          exact hprev hn
      | transfer k t =>
        dsimp only [Line.pass] at hn
        split at hn
        · cases hn
        · exact hprev hn
    · rw [hlast, Option.some.injEq] at hj
      subst hj
      dsimp only [Line.pass] at hn
      split at hn
      · cases hn
      · rename_i hcond
        exact absurd ⟨rfl, rfl, hr, hn⟩ hcond
    · rw [List.getElem?_eq_none (by simp; omega)] at hj
      cases hj

/-- Line `i` transfers tile `h` to rank `r`, which holds no copy of it. -/
def Carried (owner : Rank) (h : HandleId) (r : Rank) (ls : List Line) (i : Nat) : Prop :=
  ls[i]? = some (.transfer h r) ∧ r ≠ owner ∧ copyLine owner h r (ls.take i) = none

theorem Carried.lt {i : Nat} (hc : Carried owner h r ls i) : i < ls.length :=
  (List.getElem?_eq_some_iff.mp hc.1).1

/-- What is carried out does not depend on the lines to come. -/
theorem carried_iff_of_isPrefix {plan : List Line} (hp : ls <+: plan) {i : Nat} :
    Carried owner h r ls i ↔ i < ls.length ∧ Carried owner h r plan i := by
  obtain ⟨rest, rfl⟩ := hp
  have hsame : i < ls.length → (Carried owner h r (ls ++ rest) i ↔ Carried owner h r ls i) := by
    intro hi
    unfold Carried
    rw [List.getElem?_append_left hi, List.take_append_of_le_length (Nat.le_of_lt hi)]
  constructor
  · intro hc
    exact ⟨hc.lt, (hsame hc.lt).mpr hc⟩
  · rintro ⟨hi, hc⟩
    exact (hsame hi).mp hc

/-- A copy comes from a line that was carried out. -/
theorem carried_of_copyLine {i : Nat} (hi : copyLine owner h r ls = some i) :
    Carried owner h r ls i := by
  obtain ⟨hget, hr, hnone, -⟩ := copyLine_eq_some hi
  exact ⟨hget, hr, hnone⟩

end

/-! ## Lines of a history -/

variable {α : Type}

/-- The line that an entry stands for, unless it is a call of one rank. -/
def Entry.line? : Entry α → Option Line
  | task .. | guard .. => none
  | transfer h target => some (.transfer h target)
  | flush h => some (.flush h)

theorem Entry.own_iff_line? {e : Entry α} : e.Own ↔ e.line? = none := by
  cases e with
  | task id op => exact iff_of_true trivial rfl
  | guard id h a puts => exact iff_of_true trivial rfl
  | transfer h r => exact iff_of_false not_false (Option.some_ne_none _)
  | flush h => exact iff_of_false not_false (Option.some_ne_none _)

/-- The lines that a rank has come past. -/
def lines (hist : List (Entry α)) : List Line := hist.filterMap Entry.line?

theorem lines_append (hist hist' : List (Entry α)) :
    lines (hist ++ hist') = lines hist ++ lines hist' :=
  List.filterMap_append

theorem lines_append_singleton (hist : List (Entry α)) (e : Entry α) :
    lines (hist ++ [e]) = lines hist ++ e.line?.toList := by
  rw [lines_append]
  unfold lines
  cases he : e.line? <;> simp [he]

theorem Entry.line?_put {id : TaskId} {block : List α} {e : Entry α} :
    (e.put id block).line? = e.line? := by
  rcases put_cases id block e with h | ⟨b, a, puts, rfl, h⟩
  · rw [h]
  · rw [h]
    rfl

theorem lines_map_put (id : TaskId) (block : List α) (hist : List (Entry α)) :
    lines (hist.map (Entry.put id block)) = lines hist := by
  unfold lines
  rw [List.filterMap_map]
  congr 1
  funext e
  exact Entry.line?_put

/-- The lines that a rank has come past stay. -/
theorem lines_record (n : Node α) (hist : List (Entry α)) (a : Act α) :
    lines hist <+: lines (a.record n hist) := by
  cases a with
  | call c => cases c <;> exact lines_append _ _ ▸ List.prefix_append _ _
  | acquire h a => exact lines_append _ _ ▸ List.prefix_append _ _
  | put id block =>
    unfold Act.record
    exact (lines_map_put id block hist).symm ▸ List.prefix_refl _
  | release id => exact List.prefix_refl _
  | look id => exact List.prefix_refl _
  | take => exact List.prefix_refl _
  | work i => exact List.prefix_refl _
  | arrive i => exact List.prefix_refl _

/-! ## What a rank queues tasks for -/

namespace Node

variable (n : Node α)

/-- The owner of a buffer, as the rank knows it. -/
def owner (h : HandleId) : Rank := (n.handle h).owner

/-- The rank queues a task for an entry that comes after some lines. -/
def Queues (ls : List Line) : Entry α → Prop
  | .task .. | .guard .. => True
  | .transfer h t =>
    t ≠ n.owner h ∧ copyLine (n.owner h) h t ls = none ∧ (n.rank = t ∨ n.rank = n.owner h)
  | .flush h => n.rank ≠ n.owner h ∧ copyLine (n.owner h) h n.rank ls ≠ none

instance (ls : List Line) (e : Entry α) : Decidable (n.Queues ls e) := by
  cases e <;> unfold Queues <;> infer_instance

/-- What the rank queues tasks for, in order, each with the number of lines before it. -/
def dutiesFrom : List Line → List (Entry α) → List (Nat × Entry α)
  | _, [] => []
  | ls, e :: hist =>
    (if n.Queues ls e then [(ls.length, e)] else []) ++ dutiesFrom (ls ++ e.line?.toList) hist

/-- What the rank queues tasks for in all of a history. -/
def duties (hist : List (Entry α)) : List (Nat × Entry α) := n.dutiesFrom [] hist

variable {n} {hist : List (Entry α)} {ls : List Line}

theorem dutiesFrom_append (hist' : List (Entry α)) :
    n.dutiesFrom ls (hist ++ hist') =
      n.dutiesFrom ls hist ++ n.dutiesFrom (ls ++ lines hist) hist' := by
  induction hist generalizing ls with
  | nil => simp [dutiesFrom, lines]
  | cons e hist ih =>
    have hlines : ls ++ e.line?.toList ++ lines hist = ls ++ lines (e :: hist) := by
      rw [List.append_assoc]
      unfold lines
      cases he : e.line? <;> simp [he]
    rw [List.cons_append, dutiesFrom, ih, hlines, dutiesFrom, List.append_assoc]

theorem duties_append_of_queues {e : Entry α} (he : n.Queues (lines hist) e) :
    n.duties (hist ++ [e]) = n.duties hist ++ [((lines hist).length, e)] := by
  unfold duties
  rw [dutiesFrom_append, List.nil_append, dutiesFrom, if_pos he, dutiesFrom, List.append_nil]

theorem duties_append_of_not_queues {e : Entry α} (he : ¬n.Queues (lines hist) e) :
    n.duties (hist ++ [e]) = n.duties hist := by
  unfold duties
  rw [dutiesFrom_append, List.nil_append, dutiesFrom, if_neg he, dutiesFrom, List.append_nil,
    List.append_nil]

theorem queues_put {id : TaskId} {block : List α} {e : Entry α} :
    n.Queues ls (e.put id block) ↔ n.Queues ls e := by
  rcases e.put_cases id block with h | ⟨b, a, puts, rfl, h⟩
  · rw [h]
  · rw [h]
    exact Iff.rfl

/-- What the holder of an accessor writes does not change what tasks are queued for. -/
theorem duties_map_put (id : TaskId) (block : List α) :
    n.duties (hist.map (Entry.put id block)) =
      (n.duties hist).map fun d => (d.1, d.2.put id block) := by
  unfold duties
  generalize ([] : List Line) = ls
  induction hist generalizing ls with
  | nil => rfl
  | cons e hist ih =>
    rw [List.map_cons, dutiesFrom, dutiesFrom, Entry.line?_put, ih, List.map_append]
    congr 1
    by_cases he : n.Queues ls e
    · rw [if_pos he, if_pos (queues_put.mpr he)]
      rfl
    · rw [if_neg he, if_neg (mt queues_put.mp he)]
      rfl

/-! ### Where duties stand -/

/-- A duty comes from an entry with so many lines before it. -/
theorem mem_dutiesFrom {d : Nat × Entry α} (hd : d ∈ n.dutiesFrom ls hist) :
    ∃ before after, hist = before ++ d.2 :: after ∧ d.1 = (ls ++ lines before).length ∧
      n.Queues (ls ++ lines before) d.2 := by
  induction hist generalizing ls with
  | nil => cases hd
  | cons e hist ih =>
    rw [dutiesFrom, List.mem_append] at hd
    rcases hd with hd | hd
    · split at hd
      · rename_i he
        obtain rfl := List.mem_singleton.mp hd
        refine ⟨[], hist, rfl, ?_, ?_⟩
        · simp [lines]
        · simpa [lines] using he
      · cases hd
    · obtain ⟨before, after, rfl, hi, hq⟩ := ih hd
      have hlines : ls ++ e.line?.toList ++ lines before = ls ++ lines (e :: before) := by
        rw [List.append_assoc]
        unfold lines
        cases he : e.line? <;> simp [he]
      rw [hlines] at hi hq
      exact ⟨e :: before, after, rfl, hi, hq⟩

/-- A duty does not stand after more lines than there are. -/
theorem line_le_of_mem_duties {d : Nat × Entry α} (hd : d ∈ n.duties hist) :
    d.1 ≤ (lines hist).length := by
  obtain ⟨before, after, rfl, hi, -⟩ := mem_dutiesFrom hd
  rw [hi, List.nil_append, lines_append, List.length_append]
  exact Nat.le_add_right _ _

/-- The duty of a line is at the place of the line. -/
theorem line_of_mem_duties {d : Nat × Entry α} (hd : d ∈ n.duties hist) {l : Line}
    (hl : d.2.line? = some l) :
    (lines hist)[d.1]? = some l ∧ n.Queues ((lines hist).take d.1) d.2 := by
  obtain ⟨before, after, rfl, hi, hq⟩ := mem_dutiesFrom hd
  rw [List.nil_append] at hi hq
  have hsplit : lines (before ++ d.2 :: after) = lines before ++ l :: lines after := by
    rw [lines_append]
    unfold lines
    rw [List.filterMap_cons, hl]
  rw [hsplit, hi]
  exact ⟨by simp, by rwa [List.take_left]⟩

/-- A line that concerns the rank is among its duties. -/
theorem mem_duties_of_line {i : Nat} {e : Entry α} {l : Line} (hl : e.line? = some l)
    (hi : (lines hist)[i]? = some l) (hq : n.Queues ((lines hist).take i) e) :
    (i, e) ∈ n.duties hist := by
  induction hist using List.reverseRecOn with
  | nil => cases hi
  | append_singleton hist f ih =>
    rw [lines_append] at hi hq
    have hmem : (i, e) ∈ n.duties hist → (i, e) ∈ n.duties (hist ++ [f]) := by
      intro h
      unfold duties
      rw [dutiesFrom_append]
      exact List.mem_append_left _ h
    by_cases hlt : i < (lines hist).length
    · rw [List.getElem?_append_left hlt] at hi
      rw [List.take_append_of_le_length (Nat.le_of_lt hlt)] at hq
      exact hmem (ih hi hq)
    · obtain ⟨hf, rfl⟩ : f.line? = some l ∧ i = (lines hist).length := by
        cases hf : f.line? with
        | none =>
          simp only [lines, List.filterMap_cons, hf, List.filterMap_nil, List.append_nil] at hi
          exact absurd (List.getElem?_eq_some_iff.mp hi).1 hlt
        | some m =>
          have hone : lines [f] = [m] := by simp [lines, hf]
          rw [hone] at hi
          have hle := (List.getElem?_eq_some_iff.mp hi).1
          rw [List.length_append, List.length_singleton] at hle
          obtain rfl : i = (lines hist).length :=
            Nat.le_antisymm (Nat.le_of_lt_succ hle) (Nat.le_of_not_lt hlt)
          rw [List.getElem?_concat_length] at hi
          exact ⟨hi, rfl⟩
      have hef : f = e := by
        cases e with
        | task k op => cases hl
        | guard k h a puts => cases hl
        | transfer h target =>
          cases f with
          | task k op => cases hf
          | guard k h a puts => cases hf
          | flush h => cases hl; cases hf
          | transfer h' t' => cases hl; cases hf; rfl
        | flush h =>
          cases f with
          | task k op => cases hf
          | guard k h a puts => cases hf
          | transfer h' t' => cases hl; cases hf
          | flush h' => cases hl; cases hf; rfl
      subst hef
      rw [List.take_left] at hq
      rw [duties_append_of_queues hq]
      exact List.mem_append_right _ List.mem_cons_self

/-- The two halves of a transfer are duties of lines that are carried out. -/
theorem carried_of_duty {i : Nat} {k : TaskId} {h : HandleId} {r : Rank}
    (hd : (n.duties hist)[k]? = some (i, .transfer h r)) :
    Carried (n.owner h) h r (lines hist) i ∧ (n.rank = r ∨ n.rank = n.owner h) := by
  obtain ⟨hline, hr, hnone, hself⟩ := line_of_mem_duties (List.mem_of_getElem? hd) rfl
  exact ⟨⟨hline, hr, hnone⟩, hself⟩

/-- The two halves of a line that is carried out are duties. -/
theorem exists_duty_of_carried {i : Nat} {h : HandleId} {r : Rank}
    (hc : Carried (n.owner h) h r (lines hist) i) (hself : n.rank = r ∨ n.rank = n.owner h) :
    ∃ k : TaskId, (n.duties hist)[k]? = some (i, .transfer h r) :=
  List.getElem?_of_mem (mem_duties_of_line rfl hc.1 ⟨hc.2.1, hc.2.2, hself⟩)

/-- A duty stands after the duties of what was asked for before. -/
theorem exists_split {k : TaskId} {d : Nat × Entry α} (hd : (n.duties hist)[k]? = some d) :
    ∃ before after, hist = before ++ d.2 :: after ∧ d.1 = (lines before).length ∧
      n.Queues (lines before) d.2 ∧ (n.duties hist).take k = n.duties before ∧
      k = (n.duties before).length := by
  induction hist using List.reverseRecOn with
  | nil => cases hd
  | append_singleton hist e ih =>
    by_cases hq : n.Queues (lines hist) e
    · rw [duties_append_of_queues hq] at hd ⊢
      rcases getElem?_append_singleton_eq_some hd with hd | ⟨rfl, rfl⟩
      · obtain ⟨before, after, hsplit, hrest⟩ := ih hd
        refine ⟨before, after ++ [e], by rw [hsplit, List.append_assoc, List.cons_append], ?_⟩
        rwa [List.take_append_of_le_length (Nat.le_of_lt (lt_of_getElem?_eq_some hd))]
      · exact ⟨hist, [], rfl, rfl, hq, List.take_left, rfl⟩
    · rw [duties_append_of_not_queues hq] at hd ⊢
      obtain ⟨before, after, hsplit, hrest⟩ := ih hd
      exact ⟨before, after ++ [e], by rw [hsplit, List.append_assoc, List.cons_append], hrest⟩

/-- Duties stand in the order of the lines, and a line has at most one of them. -/
theorem duties_ordered {j k : Nat} {d e : Nat × Entry α} (hd : (n.duties hist)[j]? = some d)
    (he : (n.duties hist)[k]? = some e) (hjk : j < k) :
    d.1 ≤ e.1 ∧ (d.2.line? ≠ none → d.1 < e.1) := by
  have hpair : (n.duties hist).Pairwise fun d e => d.1 ≤ e.1 ∧ (d.2.line? ≠ none → d.1 < e.1) := by
    unfold duties
    generalize ([] : List Line) = ls
    clear hd he
    induction hist generalizing ls with
    | nil => exact List.Pairwise.nil
    | cons f hist ih =>
      rw [dutiesFrom]
      split
      · rw [List.singleton_append, List.pairwise_cons]
        refine ⟨?_, ih _⟩
        intro e he
        obtain ⟨before, after, -, hi, -⟩ := mem_dutiesFrom he
        rw [hi]
        refine ⟨by simp, ?_⟩
        intro hne
        cases hf : f.line? with
        | none => exact absurd hf hne
        | some l => simp
      · exact ih _
  obtain ⟨hj, rfl⟩ := List.getElem?_eq_some_iff.mp hd
  obtain ⟨hk, rfl⟩ := List.getElem?_eq_some_iff.mp he
  exact List.pairwise_iff_getElem.mp hpair j k hj hk hjk

/-- A line has one duty. -/
theorem duty_unique {i : Nat} {j k : TaskId} {d e : Nat × Entry α}
    (hd : (n.duties hist)[j]? = some d) (he : (n.duties hist)[k]? = some e) (hdi : d.1 = i)
    (hei : e.1 = i) (hdl : d.2.line? ≠ none) (hel : e.2.line? ≠ none) : j = k := by
  rcases Nat.lt_trichotomy j k with hjk | hjk | hjk
  · have := (duties_ordered hd he hjk).2 hdl
    rw [hdi, hei] at this
    exact absurd this (Nat.lt_irrefl i)
  · exact hjk
  · have := (duties_ordered he hd hjk).2 hel
    rw [hdi, hei] at this
    exact absurd this (Nat.lt_irrefl i)

/-- Half of a transfer stands before that of a later line. -/
theorem lt_of_line_lt {i i' : Nat} {j k : TaskId} {h h' : HandleId} {r r' : Rank}
    (hj : (n.duties hist)[j]? = some (i, .transfer h r))
    (hk : (n.duties hist)[k]? = some (i', .transfer h' r')) (hlt : i < i') : j < k := by
  rcases Nat.lt_trichotomy j k with hjk | rfl | hkj
  · exact hjk
  · rw [hj, Option.some.injEq, Prod.mk.injEq] at hk
    exact absurd hk.1 (Nat.ne_of_lt hlt)
  · exact absurd ((duties_ordered hk hj hkj).2 (by simp [Entry.line?])) (Nat.lt_asymm hlt)

theorem line_lt_of_lt {i i' : Nat} {j k : TaskId} {h h' : HandleId} {r r' : Rank}
    (hj : (n.duties hist)[j]? = some (i, .transfer h r))
    (hk : (n.duties hist)[k]? = some (i', .transfer h' r')) (hlt : j < k) : i < i' :=
  (duties_ordered hj hk hlt).2 (by simp [Entry.line?])

/-! ### A rank by itself -/

theorem queues_of_own {e : Entry α} (he : e.Own) : n.Queues ls e := by
  cases e with
  | task id op => trivial
  | guard id h a puts => trivial
  | transfer h r => exact absurd he not_false
  | flush h => exact absurd he not_false

/-- Between two lines a rank queues a task for each entry. -/
theorem dutiesFrom_of_own (hown : ∀ e ∈ hist, e.Own) :
    n.dutiesFrom ls hist = hist.map fun e => (ls.length, e) := by
  induction hist with
  | nil => rfl
  | cons e hist ih =>
    have he := hown e List.mem_cons_self
    rw [dutiesFrom, if_pos (queues_of_own he), Entry.own_iff_line?.mp he, Option.toList_none,
      List.append_nil, ih fun f hf => hown f (List.mem_cons_of_mem _ hf)]
    rfl

/-- A rank that takes part in no transfer queues a task for each entry. -/
theorem duties_of_own (hown : ∀ e ∈ hist, e.Own) : n.duties hist = hist.map fun e => (0, e) :=
  dutiesFrom_of_own hown

/-- A rank's own call is among its duties. -/
theorem mem_duties_of_own {e : Entry α} (he : e ∈ hist) (hown : e.Own) :
    ∃ i, (i, e) ∈ n.duties hist := by
  obtain ⟨before, after, rfl⟩ := List.append_of_mem he
  refine ⟨(lines before).length, ?_⟩
  unfold duties
  rw [dutiesFrom_append, List.nil_append, dutiesFrom, if_pos (queues_of_own hown)]
  exact List.mem_append_right _ (List.mem_append_left _ List.mem_cons_self)

theorem getElem?_duties_of_own (hown : ∀ e ∈ hist, e.Own) {k : Nat} {d : Nat × Entry α} :
    (n.duties hist)[k]? = some d ↔ d.1 = 0 ∧ hist[k]? = some d.2 := by
  rw [duties_of_own hown, List.getElem?_map, Option.map_eq_some_iff]
  constructor
  · rintro ⟨e, he, rfl⟩
    exact ⟨rfl, he⟩
  · rintro ⟨h, he⟩
    exact ⟨d.2, he, Prod.ext h.symm rfl⟩

end Node

end TiledTensor

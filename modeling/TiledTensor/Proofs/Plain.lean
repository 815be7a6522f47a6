import TiledTensor.Proofs.Coherence
import TiledTensor.Proofs.SubmissionOrder

/-!
# Plain execution of a program

The meaning of a program that all ranks follow is what it does if nothing happens at the same time.
Every rank makes its own calls before a line, one after the other, each run to its end; then the
line is carried out.  A transfer gives its target at once what the owner shows, unless the target
still has a copy; a flush drops all copies.

`World.plain` is this execution.  Here it is compared with the deeds on the ledgers: a rank shows in
plain execution what its deeds leave if they receive what plain execution sends.
-/

namespace TiledTensor

variable {α : Type}

/-- The calls that a rank makes by itself after exactly so many lines. -/
def stretch : Nat → List (Entry α) → List (Entry α)
  | _, [] => []
  | 0, e :: hist =>
    match e.line? with
    | none => e :: stretch 0 hist
    | some _ => []
  | i + 1, e :: hist =>
    match e.line? with
    | none => stretch (i + 1) hist
    | some _ => stretch i hist

/-! ## Stretches -/

section

variable {hist before own rest : List (Entry α)} {e : Entry α} {i : Nat}

theorem stretch_append (i : Nat) :
    stretch ((lines before).length + (i + 1)) (before ++ hist) = stretch (i + 1) hist := by
  induction before with
  | nil =>
    rw [List.nil_append]
    exact congrArg (stretch · hist) (Nat.zero_add _)
  | cons e before ih =>
    unfold lines at ih ⊢
    cases he : e.line? with
    | none =>
      rw [List.filterMap_cons_none he, List.cons_append, ← Nat.add_assoc, stretch, he]
      exact ih
    | some l =>
      rw [List.filterMap_cons_some he, List.length_cons, List.cons_append, Nat.succ_add, stretch, he]
      exact ih

/-- A stretch ends where a line comes. -/
theorem stretch_zero (hown : ∀ e ∈ own, e.Own) (hrest : ∀ e ∈ rest.head?, ¬e.Own) :
    stretch 0 (own ++ rest) = own := by
  induction own with
  | nil =>
    cases rest with
    | nil => rfl
    | cons e rest =>
      have he := mt Entry.own_iff_line?.mpr (hrest e rfl)
      obtain ⟨l, hl⟩ := Option.ne_none_iff_exists'.mp he
      rw [List.nil_append, stretch, hl]
  | cons e own ih =>
    rw [List.cons_append, stretch, Entry.own_iff_line?.mp (hown e List.mem_cons_self)]
    exact congrArg _ (ih fun f hf => hown f (List.mem_cons_of_mem _ hf))

/-- The stretch after a line. -/
theorem stretch_after (he : ¬e.Own) (hown : ∀ e ∈ own, e.Own)
    (hrest : ∀ e ∈ rest.head?, ¬e.Own) :
    stretch ((lines before).length + 1) (before ++ e :: (own ++ rest)) = own := by
  obtain ⟨l, hl⟩ := Option.ne_none_iff_exists'.mp (mt Entry.own_iff_line?.mpr he)
  rw [stretch_append, stretch, hl]
  exact stretch_zero hown hrest

/-- The last line of a history, and the calls after it. -/
theorem exists_last_line (h : (lines hist).length = i + 1) : ∃ before e own,
    hist = before ++ e :: own ∧ ¬e.Own ∧ (∀ f ∈ own, f.Own) ∧ (lines before).length = i := by
  induction hist using List.reverseRecOn with
  | nil => cases h
  | append_singleton hist f ih =>
    rw [lines_append_singleton] at h
    cases hf : f.line? with
    | none =>
      rw [hf, Option.toList_none, List.append_nil] at h
      obtain ⟨before, e, own, rfl, he, hown, hi⟩ := ih h
      refine ⟨before, e, own ++ [f], by rw [List.append_assoc, List.cons_append], he, ?_, hi⟩
      intro g hg
      rcases List.mem_append.mp hg with hg | hg
      · exact hown g hg
      · rw [List.mem_singleton.mp hg]
        exact Entry.own_iff_line?.mpr hf
    | some l =>
      rw [hf, List.length_append] at h
      refine ⟨hist, f, [], rfl, ?_, ?_, Nat.succ.inj h⟩
      · rw [Entry.own_iff_line?, hf]
        exact Option.some_ne_none l
      · intro g hg
        cases hg

theorem own_of_lines_eq_nil (h : lines hist = []) : ∀ e ∈ hist, e.Own := by
  intro e he
  rw [Entry.own_iff_line?]
  exact List.filterMap_eq_nil_iff.mp h e he

end

namespace Node

variable {n₀ n n' : Node α}

/-- The same rank with the same buffers, whatever is in them. -/
structure Resembles (n₀ n : Node α) : Prop where
  rank : n.rank = n₀.rank
  length : n.handles.length = n₀.handles.length
  bare : ∀ h, (n.handle h).bare = (n₀.handle h).bare

namespace Resembles

theorem refl (n : Node α) : n.Resembles n := ⟨rfl, rfl, fun _ => rfl⟩

theorem trans (h : n₀.Resembles n) (hm : n.OnlyMemory n') : n₀.Resembles n' :=
  ⟨hm.rank.trans h.rank, hm.length.trans h.length, fun j => (hm.bare j).trans (h.bare j)⟩

theorem owner (hn : n₀.Resembles n) (h : HandleId) : (n.handle h).owner = n₀.owner h :=
  (congrArg Handle.owner (hn.bare h) :)

/-- Only what is in a buffer is replaced. -/
theorem setHandle (hn : n₀.Resembles n) {h : HandleId} {e : Handle α}
    (he : e.bare = (n.handle h).bare) : n₀.Resembles (n.setHandle h e) := by
  refine ⟨hn.rank, (List.length_set ..).trans hn.length, ?_⟩
  intro j
  rw [handle_setHandle]
  split
  · rename_i hj
    rw [he, hj.1, hn.bare]
  · exact hn.bare j

end Resembles

end Node

variable [Scalar α]

/-! ## Plain execution -/

/-- The memory of a buffer that shows a given value. -/
def Memory.showing : Option (List α) → Memory α
  | some block => .present block
  | none => .poisoned

/-- What a line does to rank `r` when all ranks have come to it, after some other lines. -/
def Line.carryOut (ls : List Line) (nodes : Rank → Node α) (r : Rank) : Line → Node α
  | transfer h t =>
    let e := (nodes r).handle h
    if r = t ∧ t ≠ e.owner ∧ copyLine e.owner h t ls = none then
      (nodes r).setHandle h { e with memory := .showing ((nodes e.owner).shows h) }
    else nodes r
  | flush h =>
    let e := (nodes r).handle h
    if r ≠ e.owner ∧ copyLine e.owner h r ls ≠ none then
      (nodes r).setHandle h { e with memory := .absent }
    else nodes r

/-- The ranks before line `i`, if nothing happens at the same time. -/
def World.plain (w₀ : World α) (plan : List Line) (hist : Rank → List (Entry α)) :
    Nat → Rank → Node α
  | 0, r => (w₀.node r).replay (stretch 0 (hist r))
  | i + 1, r =>
    let line := match plan[i]? with
      | some l => l.carryOut (plan.take i) (w₀.plain plan hist i) r
      | none => w₀.plain plan hist i r
    line.replay (stretch (i + 1) (hist r))

/-- What a line brings in plain execution, if it is a transfer. -/
def World.brought (w₀ : World α) (plan : List Line) (hist : Rank → List (Entry α)) (i : Nat) :
    Option (List α) :=
  match plan[i]? with
  | some (.transfer h t) => (w₀.plain plan hist i ((w₀.node t).owner h)).shows h
  | _ => none

/-! ## What plain execution shows -/

namespace Node

variable {n₀ n n' : Node α} {V : Nat → Option (List α)} {hist own : List (Entry α)}

theorem Resembles.blank (hn : n₀.Resembles n) (h : HandleId) :
    (n.handle h).blank = (n₀.handle h).blank :=
  (congrArg Handle.blank (hn.bare h) :)

/-- The memory of a buffer is replaced. -/
theorem shows_setHandle_showing {h : HandleId} (hh : h < n.handles.length) (v : Option (List α)) :
    (n.setHandle h { n.handle h with memory := .showing v }).shows =
      (Deed.fill h v).effect n.shows := by
  rw [shows_setHandle hh]
  cases v <;> rfl

theorem shows_setHandle_absent {h : HandleId} (hh : h < n.handles.length) :
    (n.setHandle h { n.handle h with memory := .absent }).shows =
      (Deed.fill h (n.handle h).blank).effect n.shows := by
  rw [shows_setHandle hh]
  rfl

theorem deeds_append_own (hown : ∀ e ∈ own, e.Own) :
    n.deeds V (hist ++ own) = n.deeds V hist ++ own.map Entry.deed := by
  unfold deeds duties
  rw [dutiesFrom_append, dutiesFrom_of_own hown, List.map_append, List.map_map]
  refine congrArg _ (List.map_congr_left ?_)
  intro e he
  exact deed_of_own (hown e he)

/-- A line does to a rank what its deed says. -/
theorem shows_carryOut {nodes : Rank → Node α} {r : Rank} {e : Entry α} {l : Line}
    (hn : n₀.Resembles (nodes r)) (hr : n₀.rank = r) (he : e.line? = some l)
    (hl : l.tile < n₀.handles.length)
    (hshows : (nodes r).shows = Deed.after n₀.shows (n₀.deeds V hist))
    (hV : ∀ h, l = .transfer h r → r ≠ n₀.owner h → copyLine (n₀.owner h) h r (lines hist) = none →
      V (lines hist).length = (nodes (n₀.owner h)).shows h) :
    n₀.Resembles (l.carryOut (lines hist) nodes r) ∧
      (l.carryOut (lines hist) nodes r).shows = Deed.after n₀.shows (n₀.deeds V (hist ++ [e])) := by
  -- the rank does nothing about a line that it queues nothing for, or that another rank receives
  have hskip : (n₀.Queues (lines hist) e →
        ∀ s, (n₀.deed V ((lines hist).length, e)).effect s = s) →
      n₀.Resembles (nodes r) ∧
        (nodes r).shows = Deed.after n₀.shows (n₀.deeds V (hist ++ [e])) := by
    intro hq
    refine ⟨hn, ?_⟩
    rw [hshows]
    by_cases h : n₀.Queues (lines hist) e
    · rw [deeds_append_of_queues h, Deed.after_append_singleton, hq h]
    · rw [deeds_append_of_not_queues h]
  have hdo : n₀.Queues (lines hist) e → ∀ m, n₀.Resembles m →
      m.shows = (n₀.deed V ((lines hist).length, e)).effect (nodes r).shows →
      n₀.Resembles m ∧ m.shows = Deed.after n₀.shows (n₀.deeds V (hist ++ [e])) := by
    intro hq m hm hmshows
    refine ⟨hm, ?_⟩
    rw [hmshows, hshows, deeds_append_of_queues hq, Deed.after_append_singleton]
  cases e with
  | task id op => cases he
  | guard id h a puts => cases he
  | transfer h t =>
    obtain rfl := Option.some.inj he
    unfold Line.carryOut
    dsimp only
    split
    · rename_i hc
      rw [hn.owner] at hc
      obtain ⟨rfl, ht, hnone⟩ := hc
      refine hdo ⟨ht, hnone, Or.inl hr⟩ _ (hn.setHandle rfl) ?_
      rw [shows_setHandle_showing (hn.length ▸ hl), deed_of_target hr, hV h rfl ht hnone, ← hn.owner]
    · rename_i hc
      rw [hn.owner] at hc
      refine hskip ?_
      rintro ⟨ht, hnone, -⟩ s
      by_cases hrt : n₀.rank = t
      · exact absurd ⟨hr.symm.trans hrt, ht, hnone⟩ hc
      · rw [deed_of_ne_target hrt]
        rfl
  | flush h =>
    obtain rfl := Option.some.inj he
    unfold Line.carryOut
    dsimp only
    split
    · rename_i hc
      rw [hn.owner, ← hr] at hc
      refine hdo hc _ (hn.setHandle rfl) ?_
      rw [shows_setHandle_absent (hn.length ▸ hl), hn.blank]
      rfl
    · rename_i hc
      refine hskip ?_
      intro hq
      rw [hn.owner, ← hr] at hc
      exact absurd hq hc

end Node

namespace World

variable {w₀ : World α} {plan : List Line} {hist : Rank → List (Entry α)} {r : Rank}

/-- In plain execution a rank shows what its deeds leave if they receive what plain execution
brings. -/
theorem shows_plain (hr : (w₀.node r).rank = r) (hf : lines (hist r) <+: plan)
    (hplan : ∀ l ∈ plan, l.tile < (w₀.node r).handles.length)
    (hb : ∀ e ∈ hist r, e.Own → ∀ u ∈ e.deed.uses, u.1 < (w₀.node r).handles.length) {i : Nat}
    {before rest : List (Entry α)} (hsplit : hist r = before ++ rest)
    (hrest : ∀ e ∈ rest.head?, ¬e.Own) (hi : (lines before).length = i) :
    (w₀.node r).Resembles (w₀.plain plan hist i r) ∧
      (w₀.plain plan hist i r).shows =
        Deed.after (w₀.node r).shows ((w₀.node r).deeds (w₀.brought plan hist) before) := by
  have hreplay : ∀ (n : Node α) (done own : List (Entry α)), (∀ e ∈ own, e.Own) →
      (∀ e ∈ own, e ∈ hist r) → (w₀.node r).Resembles n →
      n.shows = Deed.after (w₀.node r).shows ((w₀.node r).deeds (w₀.brought plan hist) done) →
      (w₀.node r).Resembles (n.replay own) ∧ (n.replay own).shows =
        Deed.after (w₀.node r).shows ((w₀.node r).deeds (w₀.brought plan hist) (done ++ own)) := by
    intro n done own hown hmem hn hshows
    obtain ⟨hm, hown'⟩ := Node.shows_replay fun e he u hu => hn.length ▸ hb e (hmem e he) (hown e he) u hu
    refine ⟨hn.trans hm, ?_⟩
    rw [hown', hshows, Node.deeds_append_own hown]
    exact (List.foldl_append ..).symm
  induction i generalizing before rest with
  | zero =>
    have hown := own_of_lines_eq_nil (List.length_eq_zero_iff.mp hi)
    unfold World.plain
    rw [hsplit, stretch_zero hown hrest]
    refine hreplay _ [] before hown ?_ (.refl _) rfl
    intro e he
    rw [hsplit]
    exact List.mem_append_left _ he
  | succ i ih =>
    obtain ⟨before, e, own, rfl, he, hown, hi'⟩ := exists_last_line hi
    obtain ⟨l, hl⟩ := Option.ne_none_iff_exists'.mp (mt Entry.own_iff_line?.mpr he)
    have hsplit' : hist r = before ++ e :: (own ++ rest) := by
      rw [hsplit, List.append_assoc, List.cons_append]
    have hlines : lines (hist r) = lines before ++ l :: lines (own ++ rest) := by
      rw [hsplit', lines_append]
      unfold lines
      rw [List.filterMap_cons_some hl]
    obtain ⟨later, hlater⟩ := hf
    have htake : plan.take i = lines before := by
      rw [← hlater, hlines, List.append_assoc, ← hi', List.take_left]
    have hget : plan[i]? = some l := by
      rw [← hlater, hlines, List.append_assoc, ← hi', List.getElem?_append_right (Nat.le_refl _),
        Nat.sub_self]
      rfl
    obtain ⟨hn, hshows⟩ := @ih before (e :: (own ++ rest)) hsplit'
      (fun f hf => Option.some.inj hf ▸ he) hi'
    unfold World.plain
    rw [hget, hsplit', ← hi', stretch_after he hown hrest, hi', htake]
    obtain ⟨hn', hshows'⟩ := Node.shows_carryOut hn hr hl (hplan l (List.mem_of_getElem? hget)) hshows (by
      rintro h rfl - -
      rw [hi', World.brought, hget])
    have hfinal := hreplay _ (before ++ [e]) own hown ?_ hn' hshows'
    · rwa [List.append_assoc, List.singleton_append] at hfinal
    · intro f hf
      rw [hsplit']
      exact List.mem_append_right _ (List.mem_cons_of_mem _ (List.mem_append_left _ hf))

end World

end TiledTensor

import TiledTensor.Proofs.Ledger

/-!
# Extents and copies

Two things about the deeds of a rank that do not depend on the order in which they are done.  A
buffer that a rank owns keeps its length, and once it cannot be opened it never can.  A copy of a
buffer that it does not own has the value that was received for it, from the transfer that brought
it to the flush that drops it, and is blank otherwise.
-/

namespace TiledTensor

variable {α : Type}

namespace Store

/-- Buffers have kept their lengths, and those that could not be opened still cannot. -/
def Within (s s' : Store α) : Prop :=
  ∀ h b', s' h = some b' → ∃ b, s h = some b ∧ b'.length = b.length

theorem Within.refl (s : Store α) : s.Within s := fun _ b hb => ⟨b, hb, rfl⟩

theorem Within.trans {s s' s'' : Store α} (h : s.Within s') (h' : s'.Within s'') : s.Within s'' := by
  intro j b'' hb''
  obtain ⟨b', hb', hlen'⟩ := h' j b'' hb''
  obtain ⟨b, hb, hlen⟩ := h j b' hb'
  exact ⟨b, hb, hlen'.trans hlen⟩

/-- A buffer becomes unusable. -/
theorem within_set_none (s : Store α) (h : HandleId) : s.Within (s.set h none) := by
  intro j b' hb'
  by_cases hj : j = h
  · rw [hj, set_self] at hb'
    cases hb'
  · rw [set_of_ne _ _ hj] at hb'
    exact ⟨b', hb', rfl⟩

/-- The first elements of a buffer are replaced. -/
theorem within_set_overlay (s : Store α) (h : HandleId) (block : List α) :
    s.Within (s.set h ((s h).map (overlay block))) := by
  intro j b' hb'
  by_cases hj : j = h
  · subst hj
    rw [set_self] at hb'
    obtain ⟨b, hb, rfl⟩ := Option.map_eq_some_iff.mp hb'
    exact ⟨b, hb, length_overlay block b⟩
  · rw [set_of_ne _ _ hj] at hb'
    exact ⟨b', hb', rfl⟩

theorem within_openAll (s : Store α) (operands : List Operand) :
    s.Within (s.openAll operands).1 := by
  induction operands with
  | nil => exact .refl s
  | cons o operands ih =>
    cases o with
    | scratch bytes =>
      unfold openAll
      split
      · exact ih
      · exact .refl s
    | data h a =>
      unfold openAll
      split
      · exact .refl s
      · generalize s.openAll operands = p at ih ⊢
        obtain ⟨p, views⟩ := p
        cases views with
        | some views => exact ih
        | none =>
          dsimp only
          split
          · exact ih.trans (within_set_none p h)
          · exact ih

theorem within_storeAll (s : Store α) (operands : List Operand) (views : List (View α)) :
    s.Within (s.storeAll operands views) := by
  induction operands generalizing s views with
  | nil =>
    unfold storeAll
    exact .refl s
  | cons o operands ih =>
    cases views with
    | nil => cases o <;> exact .refl s
    | cons v views =>
      cases o with
      | scratch bytes => exact ih s views
      | data h a =>
        unfold storeAll
        refine Within.trans ?_ (ih _ views)
        cases v with
        | shared block => exact .refl s
        | scratch bytes => exact .refl s
        | exclusive block =>
          dsimp only
          split
          · exact within_set_overlay s h block
          · exact .refl s

theorem within_poisonAll (s : Store α) (uses : List (HandleId × Access)) :
    s.Within (s.poisonAll uses) := by
  unfold poisonAll
  induction uses generalizing s with
  | nil => exact .refl s
  | cons u uses ih =>
    rw [List.foldl_cons]
    refine Within.trans ?_ (ih _)
    split
    · exact within_set_none s u.1
    · exact .refl s

/-- An operation neither resizes nor repairs a buffer. -/
theorem within_run (s : Store α) (op : Op α) : s.Within (s.run op) := by
  have hopen := within_openAll s op.operands
  unfold run
  generalize s.openAll op.operands = p at hopen
  obtain ⟨p, views⟩ := p
  cases views with
  | none => exact hopen
  | some views =>
    dsimp only
    split
    · exact hopen.trans (within_storeAll p op.operands _)
    · exact hopen.trans (within_poisonAll p op.uses)

end Store

namespace Deed

/-- The deed neither resizes nor repairs the buffer. -/
def Keeps (d : Deed α) (h : HandleId) : Prop :=
  ∀ s b', d.effect s h = some b' → ∃ b, s h = some b ∧ b'.length = b.length

theorem keeps_of_not_writes {d : Deed α} {h : HandleId} (hw : ¬d.Writes h) : d.Keeps h := by
  intro s b' hb'
  rw [effect_of_not_writes hw] at hb'
  exact ⟨b', hb', rfl⟩

theorem keeps_ofOp (op : Op α) (h : HandleId) : (ofOp op).Keeps h :=
  fun s b' hb' => s.within_run op h b' hb'

theorem keeps_puts (h : HandleId) (a : Access) (blocks : List (List α)) (j : HandleId) :
    (puts h a blocks).Keeps j := by
  induction blocks with
  | nil =>
    intro s b' hb'
    rw [puts_nil_effect] at hb'
    exact ⟨b', hb', rfl⟩
  | cons block blocks ih =>
    intro s b' hb'
    have hsplit := puts_append h a [block] blocks
    rw [List.singleton_append] at hsplit
    rw [hsplit] at hb'
    obtain ⟨b₁, hb₁, hlen₁⟩ := ih _ b' hb'
    have hone : s.Within ((puts h a [block]).effect s) := by
      show s.Within (if a.writes = true then _ else _)
      split
      · exact s.within_set_overlay h block
      · exact .refl s
    obtain ⟨b, hb, hlen⟩ := hone j b₁ hb₁
    exact ⟨b, hb, hlen₁.trans hlen⟩

/-- A buffer that every deed keeps has kept its length. -/
theorem after_keeps {deeds : List (Deed α)} {h : HandleId} (hk : ∀ d ∈ deeds, d.Keeps h)
    {init : Store α} {b' : List α} (hb' : after init deeds h = some b') :
    ∃ b, init h = some b ∧ b'.length = b.length := by
  induction deeds using List.reverseRecOn generalizing b' with
  | nil => exact ⟨b', hb', rfl⟩
  | append_singleton deeds d ih =>
    rw [after_append_singleton] at hb'
    obtain ⟨b₁, hb₁, hlen₁⟩ := hk d (List.mem_append_right _ List.mem_cons_self) _ b' hb'
    obtain ⟨b, hb, hlen⟩ := ih (fun d hd => hk d (List.mem_append_left _ hd)) hb₁
    exact ⟨b, hb, hlen₁.trans hlen⟩

end Deed

namespace Node

variable [Scalar α] {n₀ n : Node α} {hist : List (Entry α)} {V : Nat → Option (List α)}
  {log : List (Task α)} {done : TaskId → Prop} {todo : List (Task α)} {h : HandleId} {k : TaskId}

/-- What a rank does to a buffer that it owns are its own calls. -/
theorem keeps_of_owner (ho : n₀.owner h = n₀.rank) {d : Nat × Entry α} {ls : List Line}
    (hq : n₀.Queues ls d.2) : (n₀.deed V d).Keeps h := by
  obtain ⟨i, e⟩ := d
  cases e with
  | task id op => exact Deed.keeps_ofOp op h
  | guard id j a puts => exact Deed.keeps_puts j a puts h
  | transfer j r =>
    refine Deed.keeps_of_not_writes ?_
    by_cases hr : n₀.rank = r
    · rw [deed_of_target hr]
      rintro ⟨a, ha, -⟩
      obtain ⟨rfl, -⟩ := Prod.mk.inj (List.mem_singleton.mp ha)
      exact hq.1 (hr.symm.trans ho.symm)
    · rw [deed_of_ne_target hr]
      rintro ⟨a, ha, hw⟩
      obtain ⟨-, rfl⟩ := Prod.mk.inj (List.mem_singleton.mp ha)
      cases hw
  | flush j =>
    refine Deed.keeps_of_not_writes ?_
    rintro ⟨a, ha, -⟩
    obtain ⟨rfl, -⟩ := Prod.mk.inj (List.mem_singleton.mp ha)
    exact hq.1 ho.symm

/-- A buffer that the rank owns is as long as it was in the beginning. -/
theorem length_of_owner (ho : n₀.owner h = n₀.rank) {b' : List α}
    (hb' : Deed.after n₀.shows ((n₀.deeds V hist).take k) h = some b') :
    ∃ b, n₀.shows h = some b ∧ b'.length = b.length := by
  refine Deed.after_keeps ?_ hb'
  intro d hd
  obtain ⟨e, he, rfl⟩ := List.mem_map.mp (List.mem_of_mem_take hd)
  obtain ⟨before, after, -, -, hq⟩ := mem_dutiesFrom he
  exact keeps_of_owner ho hq

/-! ## Copies -/

/-- What a rank shows of a buffer that it does not own, after some lines. -/
def copyOf (n₀ : Node α) (V : Nat → Option (List α)) (h : HandleId) (ls : List Line) :
    Option (List α) :=
  match copyLine (n₀.owner h) h n₀.rank ls with
  | none => (n₀.handle h).blank
  | some i => V i

theorem copyOf_of_eq {ls ls' : List Line}
    (h₀ : copyLine (n₀.owner h) h n₀.rank ls' = copyLine (n₀.owner h) h n₀.rank ls) :
    n₀.copyOf V h ls' = n₀.copyOf V h ls := by
  unfold copyOf
  rw [h₀]

/-- The rank's own calls never write a buffer that it does not own. -/
theorem not_writes_of_allowed (ho : n₀.owner h ≠ n₀.rank) {i : Nat} {e : Entry α} {ls : List Line}
    (he : e.Own) (ha : n₀.Allowed ls e.uses) : ¬(n₀.deed V (i, e)).Writes h := by
  rintro ⟨a, hu, hw⟩
  cases e with
  | task id op => exact (ha (h, a) hu ho).1 hw
  | guard id j b puts => exact (ha (h, a) hu ho).1 hw
  | transfer j r => exact he
  | flush j => exact he

section

variable (ho : n₀.owner h ≠ n₀.rank)
  (hprev : Deed.after n₀.shows (n₀.deeds V hist) h = n₀.copyOf V h (lines hist))

include hprev

/-- An entry whose duty leaves a buffer alone leaves what was received for it. -/
theorem after_deeds_append_of_keeps {e : Entry α}
    (hkeep : n₀.Queues (lines hist) e → ¬(n₀.deed V ((lines hist).length, e)).Writes h)
    (hcopy : n₀.copyOf V h (lines (hist ++ [e])) = n₀.copyOf V h (lines hist)) :
    Deed.after n₀.shows (n₀.deeds V (hist ++ [e])) h = n₀.copyOf V h (lines (hist ++ [e])) := by
  rw [hcopy]
  by_cases hq : n₀.Queues (lines hist) e
  · rw [deeds_append_of_queues hq, Deed.after_append_singleton, Deed.effect_of_not_writes (hkeep hq)]
    exact hprev
  · rw [deeds_append_of_not_queues hq]
    exact hprev

/-- The rank's own calls leave what was received. -/
theorem after_deeds_append_own (ho : n₀.owner h ≠ n₀.rank) {e : Entry α} (he : e.Own)
    (ha : n₀.Queues (lines hist) e → n₀.Allowed (lines hist) e.uses) :
    Deed.after n₀.shows (n₀.deeds V (hist ++ [e])) h = n₀.copyOf V h (lines (hist ++ [e])) := by
  refine after_deeds_append_of_keeps hprev (fun hq => not_writes_of_allowed ho he (ha hq)) ?_
  rw [lines_append_singleton, Entry.own_iff_line?.mp he]
  exact congrArg _ (List.append_nil _)

include ho

/-- A transfer leaves what the rank receives for it, if it has no copy. -/
theorem after_deeds_append_transfer (j : HandleId) (r : Rank) :
    Deed.after n₀.shows (n₀.deeds V (hist ++ [.transfer j r])) h =
      n₀.copyOf V h (lines (hist ++ [.transfer j r])) := by
  have hline : lines (hist ++ [.transfer j r]) = lines hist ++ [.transfer j r] := by
    rw [lines_append_singleton]
    rfl
  by_cases hc : j = h ∧ r = n₀.rank ∧ n₀.rank ≠ n₀.owner h ∧
      copyLine (n₀.owner h) h n₀.rank (lines hist) = none
  · obtain ⟨rfl, rfl, hr, hnone⟩ := hc
    have hq : n₀.Queues (lines hist) (.transfer j n₀.rank : Entry α) := ⟨hr, hnone, Or.inl rfl⟩
    rw [deeds_append_of_queues hq, Deed.after_append_singleton, deed_of_target rfl, hline]
    unfold copyOf
    rw [copyLine_append_singleton, Line.pass, if_pos ⟨rfl, rfl, hr, hnone⟩]
    exact Store.set_self _ _ _
  · refine after_deeds_append_of_keeps hprev ?_ ?_
    · rintro hq ⟨a, hu, hw⟩
      by_cases hr : n₀.rank = r
      · rw [deed_of_target hr] at hu
        obtain ⟨rfl, -⟩ := Prod.mk.inj (List.mem_singleton.mp hu)
        exact hc ⟨rfl, hr.symm, Ne.symm ho, hr ▸ hq.2.1⟩
      · rw [deed_of_ne_target hr] at hu
        obtain ⟨-, rfl⟩ := Prod.mk.inj (List.mem_singleton.mp hu)
        cases hw
    · refine copyOf_of_eq ?_
      rw [hline, copyLine_append_singleton, Line.pass, if_neg hc]

/-- A flush leaves nothing of a copy. -/
theorem after_deeds_append_flush (j : HandleId) :
    Deed.after n₀.shows (n₀.deeds V (hist ++ [.flush j])) h =
      n₀.copyOf V h (lines (hist ++ [.flush j])) := by
  have hline : lines (hist ++ [.flush j]) = lines hist ++ [.flush j] := by
    rw [lines_append_singleton]
    rfl
  by_cases hj : j = h
  · subst hj
    have hcopy : n₀.copyOf V j (lines (hist ++ [.flush j])) = (n₀.handle j).blank := by
      unfold copyOf
      rw [hline, copyLine_append_singleton, Line.pass, if_pos rfl]
    rw [hcopy]
    by_cases hq : n₀.Queues (lines hist) (.flush j : Entry α)
    · rw [deeds_append_of_queues hq, Deed.after_append_singleton]
      exact Store.set_self _ _ _
    · have hnone : copyLine (n₀.owner j) j n₀.rank (lines hist) = none :=
        Decidable.byContradiction fun hne => hq ⟨Ne.symm ho, hne⟩
      rw [deeds_append_of_not_queues hq]
      refine hprev.trans ?_
      unfold copyOf
      rw [hnone]
  · refine after_deeds_append_of_keeps hprev ?_ ?_
    · rintro - ⟨a, hu, -⟩
      obtain ⟨rfl, -⟩ := Prod.mk.inj (List.mem_singleton.mp hu)
      exact hj rfl
    · refine copyOf_of_eq ?_
      rw [hline, copyLine_append_singleton, Line.pass, if_neg hj]

end

/-- The deeds of a history leave in a buffer of another rank what was received for it. -/
theorem after_deeds_of_remote (ho : n₀.owner h ≠ n₀.rank)
    (hblank : n₀.shows h = (n₀.handle h).blank)
    (hallow : ∀ d ∈ n₀.duties hist, n₀.Allowed ((lines hist).take d.1) d.2.uses) :
    Deed.after n₀.shows (n₀.deeds V hist) h = n₀.copyOf V h (lines hist) := by
  induction hist using List.reverseRecOn with
  | nil => exact hblank
  | append_singleton hist e ih =>
    have hprev : Deed.after n₀.shows (n₀.deeds V hist) h = n₀.copyOf V h (lines hist) := by
      refine ih ?_
      intro d hd
      have hmem : d ∈ n₀.duties (hist ++ [e]) := by
        unfold duties
        rw [dutiesFrom_append]
        exact List.mem_append_left _ hd
      have := hallow d hmem
      rwa [lines_append, List.take_append_of_le_length (line_le_of_mem_duties hd)] at this
    have hmay : n₀.Queues (lines hist) e → n₀.Allowed (lines hist) e.uses := by
      intro hq
      have hmem : ((lines hist).length, e) ∈ n₀.duties (hist ++ [e]) := by
        rw [duties_append_of_queues hq]
        exact List.mem_append_right _ List.mem_cons_self
      have := hallow _ hmem
      rwa [lines_append, List.take_left] at this
    cases e with
    | task id op => exact after_deeds_append_own hprev ho trivial hmay
    | guard id j a puts => exact after_deeds_append_own hprev ho trivial hmay
    | transfer j r => exact after_deeds_append_transfer ho hprev j r
    | flush j => exact after_deeds_append_flush ho hprev j

/-- Before a duty the rank shows of a buffer of another rank what was received for it. -/
theorem Ledger.copy_before (hl : n.Ledger n₀ hist V log done todo) (ho : n₀.owner h ≠ n₀.rank)
    (hblank : n₀.shows h = (n₀.handle h).blank) {d : Nat × Entry α}
    (hd : (n₀.duties hist)[k]? = some d) :
    Deed.after n₀.shows ((n₀.deeds V hist).take k) h =
      n₀.copyOf V h ((lines hist).take d.1) := by
  obtain ⟨before, after, hsplit, hi, -, htake, -⟩ := exists_split hd
  have hlines : (lines hist).take d.1 = lines before := by
    rw [hsplit, lines_append, hi, List.take_left]
  rw [deeds, ← List.map_take, htake, hlines]
  refine after_deeds_of_remote ho hblank ?_
  intro e he
  have hmem : e ∈ n₀.duties hist := List.mem_of_mem_take (htake ▸ he)
  have := hl.allowed e hmem
  rwa [hsplit, lines_append, List.take_append_of_le_length (line_le_of_mem_duties he)] at this

end Node

end TiledTensor

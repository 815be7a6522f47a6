import TiledTensor.Proofs.Lockstep

/-!
# Tiles and their copies

When ranks take turns, what other ranks hold of a tile is what its owner shows, except while the
tile is being written: from the first write on the copies are out of date, and the flush after the
last write drops them all.  So a rank that a tile has been transferred to reads there what the owner
shows.

`Stage.Agrees` says so about a stage, and the lemmas here say what becomes of it: with a transfer,
with an operation that replaces one tile, and with a flush.
-/

namespace TiledTensor

variable {α : Type} [Scalar α]

namespace Stage

/-- What the owners of the tiles show. -/
def value (tiles : List Tensor.Blueprint) (s : Stage α) : Store α := fun h =>
  match tiles[h]? with
  | some b => (s.nodes b.owner).shows h
  | none => none

/-- What other ranks hold of a tile is what its owner shows, unless the tile is being written. -/
structure Agrees (w₀ : World α) (tiles : List Tensor.Blueprint) (s : Stage α)
    (writing : Option HandleId) : Prop where
  resembles : ∀ r < w₀.size, (w₀.node r).Resembles (s.nodes r)
  copies : ∀ (h : HandleId) b, tiles[h]? = some b → writing ≠ some h → ∀ r < w₀.size,
    copyLine b.owner h r s.lines ≠ none → (s.nodes r).shows h = (s.nodes b.owner).shows h

variable {w₀ : World α} {tiles : List Tensor.Blueprint} {s : Stage α} {writing : Option HandleId}
  {h d : HandleId} {b c : Tensor.Blueprint} {t q : Rank} {f : Op α}

theorem value_eq (hb : tiles[h]? = some b) : s.value tiles h = (s.nodes b.owner).shows h := by
  unfold value
  rw [hb]

theorem value_congr {s' : Stage α} (hs : ∀ (h : HandleId) b, tiles[h]? = some b →
    (s'.nodes b.owner).shows h = (s.nodes b.owner).shows h) : s'.value tiles = s.value tiles := by
  funext h
  unfold value
  cases hb : tiles[h]? with
  | none => rfl
  | some b => exact hs h b hb

namespace Agrees

theorem owner (hw : w₀.Alike tiles) (hs : s.Agrees w₀ tiles writing) (ht : t < w₀.size)
    (hb : tiles[h]? = some b) : ((s.nodes t).handle h).owner = b.owner := by
  rw [(hs.resembles t ht).owner, hw.owner ht hb]

theorem lt_length (hw : w₀.Alike tiles) (hs : s.Agrees w₀ tiles writing) (ht : t < w₀.size)
    (hb : tiles[h]? = some b) : h < (s.nodes t).handles.length := by
  rw [(hs.resembles t ht).length]
  have hlen := (hw.handles t ht).length_le
  rw [List.length_map] at hlen
  exact Nat.lt_of_lt_of_le (lt_of_getElem?_eq_some hb) hlen

/-- A transfer gives its target what the owner shows, unless the target has a copy. -/
theorem shows_transfer (hw : w₀.Alike tiles) (hs : s.Agrees w₀ tiles writing)
    (hb : tiles[h]? = some b) {r : Rank} (hr : r < w₀.size) :
    ((s.perform (.line (.transfer h t))).nodes r).shows =
      if r = t ∧ t ≠ b.owner ∧ copyLine b.owner h t s.lines = none then
        (s.nodes r).shows.set h ((s.nodes b.owner).shows h)
      else (s.nodes r).shows := by
  rw [← hs.owner hw hr hb, perform]
  dsimp only [Line.carryOut]
  split
  · rw [Node.shows_setHandle_showing (hs.lt_length hw hr hb)]
    rfl
  · rfl

/-- A flush drops the copies of a tile. -/
theorem shows_flush (hw : w₀.Alike tiles) (hs : s.Agrees w₀ tiles writing)
    (hb : tiles[h]? = some b) {r : Rank} (hr : r < w₀.size) :
    ((s.perform (.line (.flush h))).nodes r).shows =
      if r ≠ b.owner ∧ copyLine b.owner h r s.lines ≠ none then
        (s.nodes r).shows.set h ((s.nodes r).handle h).blank
      else (s.nodes r).shows := by
  rw [← hs.owner hw hr hb, perform]
  dsimp only [Line.carryOut]
  split
  · rw [Node.shows_setHandle_absent (hs.lt_length hw hr hb)]
    rfl
  · rfl

/-- A line changes nothing about a rank but what is in its buffers. -/
theorem resembles_line (hs : s.Agrees w₀ tiles writing) (l : Line) {r : Rank} (hr : r < w₀.size) :
    (w₀.node r).Resembles ((s.perform (.line l)).nodes r) := by
  rw [perform]
  cases l with
  | transfer h t =>
    dsimp only [Line.carryOut]
    split
    · exact (hs.resembles r hr).setHandle rfl
    · exact hs.resembles r hr
  | flush h =>
    dsimp only [Line.carryOut]
    split
    · exact (hs.resembles r hr).setHandle rfl
    · exact hs.resembles r hr

/-- A rank that a tile is transferred to shows what its owner does, unless the tile is being
written. -/
theorem transfer (hw : w₀.Alike tiles) (hs : s.Agrees w₀ tiles writing) (hb : tiles[h]? = some b)
    (ht : t < w₀.size) : (s.perform (.line (.transfer h t))).Agrees w₀ tiles writing ∧
      (s.perform (.line (.transfer h t))).value tiles = s.value tiles ∧
      (writing ≠ some h →
        ((s.perform (.line (.transfer h t))).nodes t).shows h = s.value tiles h) := by
  have hkept : ∀ r < w₀.size, ∀ j, (r = t ∧ t ≠ b.owner ∧ copyLine b.owner h t s.lines = none →
      j ≠ h) → ((s.perform (.line (.transfer h t))).nodes r).shows j = (s.nodes r).shows j := by
    intro r hr j hj
    rw [hs.shows_transfer hw hb hr]
    split
    · exact Store.set_of_ne _ _ (hj ‹_›)
    · rfl
  have hreceived : t ≠ b.owner → copyLine b.owner h t s.lines = none →
      ((s.perform (.line (.transfer h t))).nodes t).shows h = (s.nodes b.owner).shows h := by
    intro hne hnone
    rw [hs.shows_transfer hw hb ht, if_pos ⟨rfl, hne, hnone⟩, Store.set_self]
  have howner : ∀ (j : HandleId) c, tiles[j]? = some c →
      ((s.perform (.line (.transfer h t))).nodes c.owner).shows j = (s.nodes c.owner).shows j := by
    intro j c hc
    refine hkept _ (hw.owners c (List.mem_of_getElem? hc)) j ?_
    rintro ⟨hct, hne, -⟩ rfl
    obtain rfl : b = c := Option.some.inj (hb.symm.trans hc)
    exact hne hct.symm
  refine ⟨⟨fun r => hs.resembles_line _, fun j c hc hwj r hr hcopy => ?_⟩, value_congr howner,
    fun hwh => ?_⟩
  · rw [howner j c hc]
    rw [perform, copyLine_append_singleton, Line.pass] at hcopy
    by_cases hnew : h = j ∧ t = r ∧ r ≠ c.owner ∧ copyLine c.owner j r s.lines = none
    · obtain ⟨rfl, rfl, hne, hnone⟩ := hnew
      obtain rfl : b = c := Option.some.inj (hb.symm.trans hc)
      exact hreceived hne hnone
    · rw [if_neg hnew] at hcopy
      rw [hkept r hr j, hs.copies j c hc hwj r hr hcopy]
      rintro ⟨rfl, -, hnone⟩ rfl
      obtain rfl : b = c := Option.some.inj (hb.symm.trans hc)
      exact hcopy hnone
  · rw [value_eq hb]
    by_cases hne : t = b.owner
    · subst hne
      exact howner h b hb
    · by_cases hnone : copyLine b.owner h t s.lines = none
      · exact hreceived hne hnone
      · rw [hkept t ht h fun hcond => absurd hcond.2.2 hnone]
        exact hs.copies h b hb hwh t ht hnone

/-- The owner of a tile runs an operation that replaces it. -/
theorem run (hw : w₀.Alike tiles) (hs : s.Agrees w₀ tiles writing)
    (hwriting : ∀ j, writing = some j → j = d) (hc : tiles[d]? = some c)
    (huses : ∀ u ∈ f.uses, ∃ b, tiles[u.1]? = some b) {v : Option (List α)}
    (hf : (s.nodes c.owner).shows.run f = (s.nodes c.owner).shows.set d v) :
    (s.perform (.op c.owner f)).Agrees w₀ tiles (some d) ∧
      (s.perform (.op c.owner f)).value tiles = (s.value tiles).set d v := by
  have howner := hw.owners c (List.mem_of_getElem? hc)
  have hshows : ((s.nodes c.owner).run f).shows = (s.nodes c.owner).shows.set d v := by
    rw [Node.shows_run, hf]
    intro u hu
    obtain ⟨b, hb⟩ := huses u hu
    exact hs.lt_length hw howner hb
  have hkept : ∀ r j, j ≠ d →
      ((s.perform (.op c.owner f)).nodes r).shows j = (s.nodes r).shows j := by
    intro r j hj
    by_cases hr : r = c.owner
    · rw [hr, nodes_perform_op, hshows, Store.set_of_ne _ _ hj]
    · rw [nodes_perform_op_of_ne s f hr]
  refine ⟨⟨fun r hr => ?_, fun j b hb hj r hr hcopy => ?_⟩, funext fun j => ?_⟩
  · by_cases hrc : r = c.owner
    · subst hrc
      rw [nodes_perform_op]
      exact (hs.resembles _ hr).trans (Node.onlyMemory_run _ f)
    · rw [nodes_perform_op_of_ne s f hrc]
      exact hs.resembles r hr
  · have hjd : j ≠ d := fun h => hj (congrArg some h.symm)
    rw [hkept r j hjd, hkept b.owner j hjd]
    exact hs.copies j b hb (fun h => hjd (hwriting j h)) r hr hcopy
  · by_cases hj : j = d
    · rw [hj, Store.set_self, value_eq hc, nodes_perform_op, hshows, Store.set_self]
    · rw [Store.set_of_ne _ _ hj]
      unfold value
      cases hb : tiles[j]? with
      | none => rfl
      | some b => exact hkept b.owner j hj

/-- A flush drops all copies of the tile that was being written. -/
theorem flush (hw : w₀.Alike tiles) (hs : s.Agrees w₀ tiles writing)
    (hwriting : ∀ j, writing = some j → j = d) (hc : tiles[d]? = some c) :
    (s.perform (.line (.flush d))).Agrees w₀ tiles none ∧
      (s.perform (.line (.flush d))).value tiles = s.value tiles := by
  have hkept : ∀ r < w₀.size, ∀ j, (j = d → r = c.owner) →
      ((s.perform (.line (.flush d))).nodes r).shows j = (s.nodes r).shows j := by
    intro r hr j hj
    rw [hs.shows_flush hw hc hr]
    split
    · rename_i hcond
      exact Store.set_of_ne _ _ fun h => hcond.1 (hj h)
    · rfl
  have howner : ∀ (j : HandleId) b, tiles[j]? = some b →
      ((s.perform (.line (.flush d))).nodes b.owner).shows j = (s.nodes b.owner).shows j := by
    intro j b hb
    refine hkept _ (hw.owners b (List.mem_of_getElem? hb)) j ?_
    rintro rfl
    rw [Option.some.inj (hb.symm.trans hc)]
  refine ⟨⟨fun r => hs.resembles_line _, fun j b hb _ r hr hcopy => ?_⟩, value_congr howner⟩
  · rw [perform, copyLine_append_singleton, Line.pass] at hcopy
    by_cases hj : d = j
    · exact absurd (if_pos hj) hcopy
    · rw [if_neg hj] at hcopy
      rw [hkept r hr j fun h => absurd h.symm hj, howner j b hb]
      exact hs.copies j b hb (fun h => hj (hwriting j h).symm) r hr hcopy

/-- Another tile is transferred to the owner of a tile, which runs an operation on both. -/
theorem transfer_run (hw : w₀.Alike tiles) (hs : s.Agrees w₀ tiles writing)
    (hwriting : ∀ j, writing = some j → j = d) (hb : tiles[h]? = some b) (hc : tiles[d]? = some c)
    (hne : h ≠ d) (huses : ∀ u ∈ f.uses, u.1 = h ∨ u.1 = d) {v : Option (List α)}
    (hf : ∀ st : Store α, st h = s.value tiles h → st d = s.value tiles d →
      st.run f = st.set d v) :
    (s.performAll [.line (.transfer h c.owner), .op c.owner f]).Agrees w₀ tiles (some d) ∧
      (s.performAll [.line (.transfer h c.owner), .op c.owner f]).value tiles =
        (s.value tiles).set d v := by
  obtain ⟨hs', hvalue, hread⟩ := hs.transfer hw hb (hw.owners c (List.mem_of_getElem? hc))
  rw [← hvalue]
  refine hs'.run hw hwriting hc ?_ (hf _ ?_ ?_)
  · intro u hu
    rcases huses u hu with hu | hu
    · exact ⟨b, hu ▸ hb⟩
    · exact ⟨c, hu ▸ hc⟩
  · exact hread fun h' => hne (hwriting h h')
  · rw [← hvalue, value_eq hc]

end Agrees

/-! ## One tile after the other -/

/-- Moves that replace one tile after the other replace all of them. -/
theorem performAll_flatMap {β : Type} (items : List β) (moves : β → List (Move α))
    (target : β → HandleId) (post : β → Option (List α) → Prop) {targets : List HandleId}
    {v : Store α} (hsub : ∀ x ∈ items, target x ∈ targets)
    (hnodup : (items.map target).Nodup)
    (hstep : ∀ x ∈ items, ∀ s : Stage α, s.Agrees w₀ tiles none →
      (∀ j, j ∉ targets ∨ j = target x → s.value tiles j = v j) →
      (s.performAll (moves x)).Agrees w₀ tiles none ∧
        (∀ j ≠ target x, (s.performAll (moves x)).value tiles j = s.value tiles j) ∧
        post x ((s.performAll (moves x)).value tiles (target x)))
    (hs : s.Agrees w₀ tiles none)
    (hv : ∀ j, j ∉ targets ∨ j ∈ items.map target → s.value tiles j = v j) :
    (s.performAll (items.flatMap moves)).Agrees w₀ tiles none ∧
      (∀ j ∉ items.map target,
        (s.performAll (items.flatMap moves)).value tiles j = s.value tiles j) ∧
      ∀ x ∈ items, post x ((s.performAll (items.flatMap moves)).value tiles (target x)) := by
  induction items generalizing s with
  | nil => exact ⟨hs, fun _ _ => rfl, by simp⟩
  | cons x items ih =>
    rw [List.map_cons, List.nodup_cons] at hnodup
    obtain ⟨hx, hnodup⟩ := hnodup
    obtain ⟨hs₁, hkept₁, hpost₁⟩ := hstep x List.mem_cons_self s hs fun j hj =>
      hv j (hj.imp_right fun h => by rw [h]; exact List.mem_cons_self)
    obtain ⟨hs₂, hkept₂, hpost₂⟩ := ih (fun y hy => hsub y (List.mem_cons_of_mem _ hy)) hnodup
      (fun y hy => hstep y (List.mem_cons_of_mem _ hy)) hs₁ (by
        intro j hj
        have hjx : j ≠ target x := by
          rintro rfl
          rcases hj with hj | hj
          · exact hj (hsub x List.mem_cons_self)
          · exact hx hj
        rw [hkept₁ j hjx]
        exact hv j (hj.imp_right (List.mem_cons_of_mem _)))
    rw [List.flatMap_cons, performAll_append]
    refine ⟨hs₂, fun j hj => ?_, fun y hy => ?_⟩
    · rw [List.map_cons, List.mem_cons, not_or] at hj
      rw [hkept₂ j hj.2, hkept₁ j hj.1]
    · rcases List.mem_cons.mp hy with rfl | hy
      · rw [hkept₂ _ hx]
        exact hpost₁
      · exact hpost₂ y hy

end Stage

end TiledTensor

import TiledTensor.Proofs.Together

/-!
# Sends and receives pair up

Whether a message is sent is decided by the owner of a tile, and whether it is awaited by the
target, each from its own marks.  Both follow the same lines, so they decide alike.  The messages of
a tile to a rank are sent in the order of the lines, and taken in the same order: the target takes
the first messages for the first receives that it has queued.
-/

namespace TiledTensor

/-- The first of two lists that stand for the same numbers, entry by entry, goes as far as its
numbers do. -/
theorem isPrefix_of_forall₂ {β : Type} {R : Nat → β → Prop}
    (huniq : ∀ i b c, R i b → R i c → b = c) {L M : List Nat} {bs cs : List β} (h : L <+: M)
    (hb : List.Forall₂ R L bs) (hc : List.Forall₂ R M cs) : bs <+: cs := by
  obtain ⟨rest, rfl⟩ := h
  have htake := List.forall₂_take L.length hc
  rw [List.take_left] at htake
  rw [eq_of_forall₂ huniq hb htake]
  exact List.take_prefix _ _

namespace Coherent

variable {α : Type} [Scalar α] {w₀ : World α} {tiles : List Tensor.Blueprint} {plan : List Line}
  {net : Cluster} {V : Nat → Option (List α)} {site : Rank → Site α} {r : Rank} {h : HandleId}
  {b : Tensor.Blueprint} {i j : Nat} {k : TaskId}

section

variable (hw : w₀.Common tiles plan) (hc : Coherent w₀ tiles plan net V site) (hr : r < w₀.size)
  (hb : tiles[h]? = some b)

include hw hc hr hb

/-- A receive that is done has the earlier ones of the tile behind it. -/
theorem done_of_earlier_receive (hk : Asks w₀ site r k j h) (hdone : (site r).done k)
    (hcar : Carried b.owner h r plan i) (hij : i < j) :
    ∃ k', Asks w₀ site r k' i h ∧ (site r).done k' := by
  obtain ⟨k', hk', hprec⟩ := hc.received_before hw hr hk hb hcar hij
  exact ⟨k', hk', (hc.ledger r hr).account.orderly.sound.closed k' k hprec hdone⟩

/-- The receives that have taken a message are the first that were queued. -/
theorem taken_prefix_asked :
    (along h (site r).mail.taken).map Prod.fst <+: along h (site r).mail.asked := by
  have hrank := hw.rank r hr
  obtain ⟨L, hL, htaken⟩ := (hc.tallies r hr).taken h
  obtain ⟨M, hM, hasked⟩ := (hc.tallies r hr).asked h
  rw [hrank] at hL hM htaken hasked
  refine isPrefix_of_forall₂ ?_ (hL.isPrefix hM ?_ ?_)
    (List.forall₂_map_right_iff.mpr (htaken.imp fun _ _ hd => hd.1)) hasked
  · intro i k k' hk hk'
    exact Node.duty_unique hk hk' rfl rfl (by simp [Entry.line?]) (by simp [Entry.line?])
  · rintro i ⟨k, hk, -⟩
    exact ⟨k, hk⟩
  · rintro i j ⟨k, hk⟩ ⟨k', hk', hdone⟩ hij
    obtain ⟨b', hb', hcar, -⟩ := hc.carried hw hr hk
    obtain rfl : b = b' := Option.some.inj (hb.symm.trans hb')
    exact hc.done_of_earlier_receive hw hr hb hk' hdone hcar hij

variable (hne : r ≠ b.owner)

include hne

/-- At the same point of the program the owner has noted a rank exactly if the rank has a copy. -/
theorem noted_iff_cached (hsame : lines (site b.owner).hist = lines (site r).hist) :
    r ∈ ((site b.owner).node.handle h).sent ↔
      ((site r).node.handle h).state = .remoteCached := by
  have ho : b.owner < w₀.size := hw.owners b (List.mem_of_getElem? hb)
  have hbound : ∀ q < w₀.size, h < (w₀.node q).handles.length := by
    intro q hq
    have hprefix := (hw.handles q hq).length_le
    rw [List.length_map] at hprefix
    exact Nat.lt_of_lt_of_le (lt_of_getElem?_eq_some hb) hprefix
  have howner := (hc.ledger b.owner ho).marks.sent h (hbound _ ho)
    ((hw.owner ho hb).trans (hw.rank _ ho).symm) r
  have hcopy := (hc.ledger r hr).marks.cached h (hbound _ hr) (by
    rw [hw.owner hr hb, hw.rank r hr]
    exact Ne.symm hne)
  rw [hw.owner ho hb, hsame] at howner
  rw [hw.owner hr hb, hw.rank r hr] at hcopy
  exact howner.trans hcopy.symm

/-- The messages that have been taken are the first that were sent. -/
theorem taken_prefix_sent :
    (along h (site r).mail.taken).map Prod.snd <+: along (h, r) (site b.owner).mail.sent := by
  have hrank := hw.rank r hr
  have ho : b.owner < w₀.size := hw.owners b (List.mem_of_getElem? hb)
  obtain ⟨L, hL, htaken⟩ := (hc.tallies r hr).taken h
  obtain ⟨M, hM, hsent⟩ := (hc.tallies b.owner ho).sent h r (by
    rw [hw.rank _ ho]
    exact Ne.symm hne)
  rw [hrank] at hL htaken
  have hpayloads : (along h (site r).mail.taken).map Prod.snd = L.map (shipment V) := by
    refine eq_of_forall₂ (R := fun i p => p = shipment V i) ?_
      (List.forall₂_map_right_iff.mpr (htaken.imp fun _ _ hd => hd.2))
      (List.forall₂_map_right_iff.mpr (List.forall₂_same.mpr fun _ _ => rfl))
    rintro i p q rfl rfl
    rfl
  rw [hsent, hpayloads]
  refine List.IsPrefix.map _ (hL.isPrefix hM ?_ ?_)
  · rintro i ⟨k, hk, hdone⟩
    obtain ⟨b', hb', hcar, -⟩ := hc.carried hw hr hk
    obtain rfl : b = b' := Option.some.inj (hb.symm.trans hb')
    obtain ⟨block, hV⟩ := Option.ne_none_iff_exists'.mp (hc.received r hr k i h hk hdone)
    obtain ⟨k', hk', hdone', -⟩ := hc.source_of_carried hw hb hcar hV
    exact ⟨k', hk', hdone'⟩
  · rintro i j ⟨k, hk, -⟩ ⟨k', hk', hdone⟩ hij
    obtain ⟨b', hb', hcar, -⟩ := hc.carried hw ho hk
    obtain rfl : b = b' := Option.some.inj (hb.symm.trans hb')
    exact hc.done_of_earlier_receive hw hr hb hk' hdone hcar hij

end

end Coherent

end TiledTensor

import TiledTensor.Proofs.Turns
import TiledTensor.Proofs.Wire

/-!
# Coherence

All ranks have made the same tiles and come past the same lines, each at its own pace.  `Coherent`
ties together what is known about the ranks, one ledger each, and what is on its way between them.
The value that the owner has sent for a line is written down in one table `V`; the sends of a line
that are done are exactly those with a value in the table, and a receive that is done has found the
value there.

Here it is shown that a rank may do what is nobody else's business.
-/

namespace TiledTensor

variable {α : Type}

/-! ## Common tiles -/

/-- The handle of a tile that has just been made. -/
def Tensor.Blueprint.handle (b : Tensor.Blueprint) : Handle α :=
  .new b.layout.count b.owner (some b.tag)

/-- All ranks have made the same tiles first, and nothing has been asked of them yet. -/
structure World.Alike (w : World α) (tiles : List Tensor.Blueprint) : Prop where
  cluster : w.cluster = Cluster.ofSize w.size
  owners : ∀ b ∈ tiles, b.owner < w.size
  tags : (tiles.map (·.tag)).Nodup
  fresh : ∀ r < w.size, (w.node r).Fresh
  rank : ∀ r < w.size, (w.node r).rank = r
  size : ∀ r < w.size, (w.node r).size = w.size
  handles : ∀ r < w.size, tiles.map Tensor.Blueprint.handle <+: (w.node r).handles

/-- The tile that a line is about. -/
def Line.tile : Line → HandleId
  | transfer h _ => h
  | flush h => h

/-- The ranks begin alike, and the lines of the program are about their common tiles. -/
structure World.Common (w : World α) (tiles : List Tensor.Blueprint) (plan : List Line) : Prop
    extends w.Alike tiles where
  plan : ∀ l ∈ plan, l.tile < tiles.length

section

variable {w : World α} {tiles : List Tensor.Blueprint} {plan : List Line} {r t : Rank}
  {h : HandleId} {b : Tensor.Blueprint} {i : Nat}

theorem World.Alike.handle (ha : w.Alike tiles) (hr : r < w.size) (hb : tiles[h]? = some b) :
    (w.node r).handle h = b.handle := by
  obtain ⟨own, hown⟩ := ha.handles r hr
  have hh : h < (tiles.map (Tensor.Blueprint.handle (α := α))).length := by
    rw [List.length_map]
    exact lt_of_getElem?_eq_some hb
  unfold Node.handle
  rw [List.getD_eq_getElem?_getD, ← hown, List.getElem?_append_left hh, List.getElem?_map, hb]
  rfl

theorem World.Alike.owner (ha : w.Alike tiles) (hr : r < w.size) (hb : tiles[h]? = some b) :
    (w.node r).owner h = b.owner := by
  unfold Node.owner
  rw [ha.handle hr hb]
  rfl

/-- A transfer of the program is about a common tile. -/
theorem World.Common.exists_tile (hw : w.Common tiles plan)
    (hp : plan[i]? = some (.transfer h t)) : ∃ b, tiles[h]? = some b := by
  have hlt : h < tiles.length := hw.plan _ (List.mem_of_getElem? hp)
  exact ⟨_, List.getElem?_eq_getElem hlt⟩

/-- The halves of transfers are those of lines that are carried out. -/
theorem World.Common.carried (hw : w.Common tiles plan) (hr : r < w.size) {hist : List (Entry α)}
    (hf : lines hist <+: plan) {k : TaskId}
    (hd : ((w.node r).duties hist)[k]? = some (i, .transfer h t)) :
    ∃ b, tiles[h]? = some b ∧ Carried b.owner h t plan i ∧ (r = t ∨ r = b.owner) ∧
      i < (lines hist).length := by
  obtain ⟨hcar, hself⟩ := Node.carried_of_duty hd
  obtain ⟨hi, hplan⟩ := (carried_iff_of_isPrefix hf).mp hcar
  obtain ⟨b, hb⟩ := hw.exists_tile hplan.1
  rw [hw.owner hr hb] at hplan hself
  rw [hw.rank r hr] at hself
  exact ⟨b, hb, hplan, hself, hi⟩

/-- A common tile is blank at first. -/
theorem World.Alike.blank [Scalar α] (ha : w.Alike tiles) (hr : r < w.size) (hb : tiles[h]? = some b) :
    (w.node r).shows h = (b.handle : Handle α).blank := by
  unfold Node.shows
  rw [ha.handle hr hb]
  rfl

end

/-! ## Coherent ranks -/

/-- A rank with its history and what is known about it. -/
structure Site (α : Type) where
  node : Node α
  hist : List (Entry α)
  mail : Mail
  log : List (Task α)
  done : TaskId → Prop
  todo : List (Task α)

/-- Task `k` of rank `t` is the receive of tile `h` for line `i`. -/
def Asks (w₀ : World α) (site : Rank → Site α) (t : Rank) (k : TaskId) (i : Nat) (h : HandleId) :
    Prop :=
  ((w₀.node t).duties (site t).hist)[k]? = some (i, .transfer h t)

/-- The receive of tile `h` on rank `t` for line `i` has been started. -/
def Begun (w₀ : World α) (site : Rank → Site α) (t : Rank) (h : HandleId) (i : Nat) : Prop :=
  ∃ k, Asks w₀ site t k i h ∧ ((site t).done k ∨ ∃ a ∈ (site t).node.arrivals, a.id = k)

section

variable {w₀ : World α} {site : Rank → Site α} {s' : Site α} {o r : Rank} {h : HandleId} {i j : Nat}
  {k : TaskId}

/-! Another site takes the place of one, with the same history. -/

theorem hist_update (hh : s'.hist = (site o).hist) (q : Rank) :
    (Function.update site o s' q).hist = (site q).hist := by
  by_cases hq : q = o
  · rw [hq, Function.update_self, hh]
  · rw [Function.update_of_ne hq]

theorem asks_update (hh : s'.hist = (site o).hist) :
    Asks w₀ (Function.update site o s') = Asks w₀ site := by
  funext q k i h
  unfold Asks
  rw [hist_update hh]

theorem arrivals_update {as : List Arrival} (ha : s'.node.arrivals = as) (q : Rank) :
    (Function.update site o s' q).node.arrivals =
      if q = o then as else (site q).node.arrivals := by
  by_cases hq : q = o
  · rw [hq, Function.update_self, ha, if_pos rfl]
  · rw [Function.update_of_ne hq, if_neg hq]

/-- A task is the receive for one line only. -/
theorem Asks.unique {h' : HandleId} (hk : Asks w₀ site r k i h) (hk' : Asks w₀ site r k j h') :
    i = j ∧ h = h' := by
  have heq := hk.symm.trans hk'
  rw [Option.some.injEq, Prod.mk.injEq] at heq
  exact ⟨heq.1, (Entry.transfer.inj heq.2).1⟩

/-- The receives of a rank are under way as before if nothing has happened to them. -/
theorem begun_congr (hh : s'.hist = (site o).hist) (ha : s'.node.arrivals = (site o).node.arrivals)
    (hd : ∀ k i h, Asks w₀ site o k i h → (s'.done k ↔ (site o).done k)) (q : Rank) (h : HandleId)
    (i : Nat) : Begun w₀ (Function.update site o s') q h i ↔ Begun w₀ site q h i := by
  unfold Begun
  rw [asks_update hh]
  by_cases hq : q = o
  · subst hq
    rw [Function.update_self, ha]
    exact exists_congr fun k => and_congr_right fun hk => or_congr_left (hd k i h hk)
  · rw [Function.update_of_ne hq]

/-- With a new arrival one more receive of a rank is under way. -/
theorem begun_append {a : Arrival} (hh : s'.hist = (site r).hist)
    (hdone : ∀ k, s'.done k ↔ (site r).done k)
    (harr : s'.node.arrivals = (site r).node.arrivals ++ [a]) (hd : Asks w₀ site r a.id i h)
    (q : Rank) (h' : HandleId) (j : Nat) : Begun w₀ (Function.update site r s') q h' j ↔
      Begun w₀ site q h' j ∨ (q = r ∧ h' = h ∧ j = i) := by
  unfold Begun
  rw [asks_update hh]
  by_cases hq : q = r
  · subst hq
    rw [Function.update_self, harr]
    constructor
    · rintro ⟨k, hk, hkd | ⟨a', ha', rfl⟩⟩
      · exact Or.inl ⟨k, hk, Or.inl ((hdone k).mp hkd)⟩
      · rcases List.mem_append.mp ha' with ha' | ha'
        · exact Or.inl ⟨_, hk, Or.inr ⟨a', ha', rfl⟩⟩
        · obtain rfl := List.mem_singleton.mp ha'
          obtain ⟨rfl, rfl⟩ := hk.unique hd
          exact Or.inr ⟨rfl, rfl, rfl⟩
    · rintro (⟨k, hk, hkd | ⟨a', ha', rfl⟩⟩ | ⟨-, rfl, rfl⟩)
      · exact ⟨k, hk, Or.inl ((hdone k).mpr hkd)⟩
      · exact ⟨_, hk, Or.inr ⟨a', List.mem_append_left _ ha', rfl⟩⟩
      · exact ⟨a.id, hd, Or.inr ⟨a, List.mem_append_right _ List.mem_cons_self, rfl⟩⟩
  · rw [Function.update_of_ne hq]
    exact (or_iff_left fun hc => hq hc.1).symm

/-- A receive whose arrival is over counts as under way, since it is done. -/
theorem begun_eraseIdx {a : Arrival} (hh : s'.hist = (site r).hist)
    (hdone : ∀ k, s'.done k ↔ (site r).done k ∨ k = a.id) (ha : (site r).node.arrivals[j]? = some a)
    (harr : s'.node.arrivals = (site r).node.arrivals.eraseIdx j) (q : Rank) (h : HandleId)
    (i : Nat) : Begun w₀ (Function.update site r s') q h i ↔ Begun w₀ site q h i := by
  unfold Begun
  rw [asks_update hh]
  by_cases hq : q = r
  · subst hq
    rw [Function.update_self, harr]
    refine exists_congr fun k => and_congr_right fun _ => ?_
    rw [hdone]
    constructor
    · rintro ((hk | rfl) | ⟨a', ha', rfl⟩)
      · exact Or.inl hk
      · exact Or.inr ⟨a, List.mem_of_getElem? ha, rfl⟩
      · exact Or.inr ⟨a', List.mem_of_mem_eraseIdx ha', rfl⟩
    · rintro (hk | ⟨a', ha', rfl⟩)
      · exact Or.inl (Or.inl hk)
      · by_cases hid : a'.id = a.id
        · exact Or.inl (Or.inr hid)
        · refine Or.inr ⟨a', List.mem_eraseIdx_iff_getElem?.mpr ?_, rfl⟩
          obtain ⟨m, hm⟩ := List.getElem?_of_mem ha'
          refine ⟨m, ?_, hm⟩
          rintro rfl
          rw [ha, Option.some.injEq] at hm
          exact hid (by rw [hm])
  · rw [Function.update_of_ne hq]

/-- The task that sends is no receive. -/
theorem ne_of_asks (hd : ((w₀.node o).duties (site o).hist)[k]? = some (i, .transfer h r))
    (hne : o ≠ r) {k' : TaskId} {h' : HandleId} (hk : Asks w₀ site o k' j h') : k' ≠ k := by
  rintro rfl
  have heq := hk.symm.trans hd
  rw [Option.some.injEq, Prod.mk.injEq] at heq
  exact hne (Entry.transfer.inj heq.2).2

end

variable [Scalar α]

/-- The ranks know what they should, and the right messages are on their way. -/
structure Coherent (w₀ : World α) (tiles : List Tensor.Blueprint) (plan : List Line) (net : Cluster)
    (V : Nat → Option (List α)) (site : Rank → Site α) : Prop where
  ledger : ∀ r < w₀.size, (site r).node.Ledger (w₀.node r) (site r).hist V (site r).log (site r).done
    (site r).todo
  tallies : ∀ r < w₀.size, (site r).mail.Tallies (w₀.node r) (site r).hist V (site r).done
  follows : ∀ r < w₀.size, lines (site r).hist <+: plan
  targets : ∀ r < w₀.size, ∀ h t, .transfer h t ∈ lines (site r).hist → t < w₀.size
  /-- The sends of a line are done exactly if it has a value. -/
  shipped : ∀ r < w₀.size, ∀ (k : TaskId) i h t, r ≠ t →
    ((w₀.node r).duties (site r).hist)[k]? = some (i, .transfer h t) →
      ((site r).done k ↔ V i ≠ none)
  /-- The value of a line is what its owner has after what it was asked for before. -/
  source : ∀ i b, V i = some b → ∃ r < w₀.size, ∃ (k : TaskId) (h : HandleId) (t : Rank), r ≠ t ∧
    ((w₀.node r).duties (site r).hist)[k]? = some (i, .transfer h t) ∧
      Deed.after (w₀.node r).shows (((w₀.node r).deeds V (site r).hist).take k) h = some b
  received : ∀ r < w₀.size, ∀ k i h, Asks w₀ site r k i h → (site r).done k → V i ≠ none
  /-- The transfers of a tile to a rank are sent in order. -/
  inOrder : ∀ (h : HandleId) b, tiles[h]? = some b → ∀ t i j, Carried b.owner h t plan i →
    Carried b.owner h t plan j → i < j → V j ≠ none → V i ≠ none
  wire : Wire w₀.size tiles plan net V (fun r => (site r).node.arrivals) (Asks w₀ site)
    (Begun w₀ site)

namespace Coherent

variable {w₀ : World α} {tiles : List Tensor.Blueprint} {plan : List Line} {net net' : Cluster}
  {V : Nat → Option (List α)} {site : Rank → Site α} {r t : Rank} {h : HandleId} {i j : Nat}
  {k : TaskId} {b : Tensor.Blueprint} {s' : Site α}

/-- The target of a transfer exists. -/
theorem target_lt (hc : Coherent w₀ tiles plan net V site) (hr : r < w₀.size)
    (hd : ((w₀.node r).duties (site r).hist)[k]? = some (i, .transfer h t)) : t < w₀.size :=
  hc.targets r hr h t
    (List.mem_of_getElem? (Node.line_of_mem_duties (List.mem_of_getElem? hd) rfl).1)

section

variable (hw : w₀.Common tiles plan) (hc : Coherent w₀ tiles plan net V site)

include hw hc

theorem carried (hr : r < w₀.size)
    (hd : ((w₀.node r).duties (site r).hist)[k]? = some (i, .transfer h t)) :
    ∃ b, tiles[h]? = some b ∧ Carried b.owner h t plan i ∧ (r = t ∨ r = b.owner) ∧
      i < (lines (site r).hist).length :=
  hw.carried hr (hc.follows r hr) hd

/-- A rank that has come past a line that concerns it has its half of the transfer. -/
theorem exists_duty (hr : r < w₀.size) (hb : tiles[h]? = some b)
    (hcar : Carried b.owner h t plan i) (hi : i < (lines (site r).hist).length)
    (hself : r = t ∨ r = b.owner) :
    ∃ k : TaskId, ((w₀.node r).duties (site r).hist)[k]? = some (i, .transfer h t) := by
  refine Node.exists_duty_of_carried ?_ ?_
  · rw [hw.owner hr hb]
    exact (carried_iff_of_isPrefix (hc.follows r hr)).mpr ⟨hi, hcar⟩
  · rw [hw.owner hr hb, hw.rank r hr]
    exact hself

/-- A value is sent by the owner of the tile. -/
theorem source_of_carried (hb : tiles[h]? = some b) (hcar : Carried b.owner h t plan i)
    {block : List α} (hV : V i = some block) : ∃ k : TaskId,
      ((w₀.node b.owner).duties (site b.owner).hist)[k]? = some (i, .transfer h t) ∧
      (site b.owner).done k ∧
      Deed.after (w₀.node b.owner).shows
        (((w₀.node b.owner).deeds V (site b.owner).hist).take k) h = some block := by
  obtain ⟨o, ho, k, h', t', hne, hd, hval⟩ := hc.source i block hV
  obtain ⟨b', hb', hcar', hself, -⟩ := hc.carried hw ho hd
  obtain ⟨rfl, rfl⟩ := Wire.carried_unique hcar hcar'
  obtain rfl : b = b' := Option.some.inj (hb.symm.trans hb')
  obtain rfl := hself.resolve_left hne
  refine ⟨k, hd, (hc.shipped _ ho k i h t hne hd).mpr ?_, hval⟩
  rw [hV]
  exact Option.some_ne_none _

end

/-! ## Nobody else's business -/

/-- The receives of a rank that goes on quietly are under way as before. -/
theorem begun_quiet (hc : Coherent w₀ tiles plan net V site) (hr : r < w₀.size)
    (hrank : (w₀.node r).rank = r)
    (hq : (w₀.node r).Quiet (site r).node s'.node (site r).hist s'.hist V (site r).done s'.done)
    (t : Rank) (h : HandleId) (i : Nat) :
    Begun w₀ (Function.update site r s') t h i ↔ Begun w₀ site t h i := by
  by_cases ht : t = r
  · subst ht
    unfold Begun Asks
    rw [Function.update_self]
    constructor
    · rintro ⟨k, hk, hd | ⟨a, ha, rfl⟩⟩
      · rcases hq.fresh k i h t hk with hk | ⟨-, hn⟩
        · exact ⟨k, hk, Or.inl ((hq.done_iff k i h t hk).mp hd)⟩
        · exact absurd hd hn
      · rw [hq.arrivals] at ha
        obtain ⟨j, hj⟩ := (hc.ledger t hr).duty_of_arrival ha
        rw [hrank] at hj
        have hsame := (hq.kept a.id j a.handle t hj).symm.trans hk
        rw [Option.some.injEq] at hsame
        exact ⟨a.id, hj.trans (congrArg some hsame), Or.inr ⟨a, ha, rfl⟩⟩
    · rintro ⟨k, hk, hd | ⟨a, ha, rfl⟩⟩
      · exact ⟨k, hq.kept k i h t hk, Or.inl ((hq.done_iff k i h t hk).mpr hd)⟩
      · exact ⟨a.id, hq.kept a.id i h t hk, Or.inr ⟨a, hq.arrivals ▸ ha, rfl⟩⟩
  · unfold Begun Asks
    rw [Function.update_of_ne ht]

/-- A rank does something that is nobody else's business. -/
theorem quiet (hw : w₀.Common tiles plan) (hc : Coherent w₀ tiles plan net V site)
    (hr : r < w₀.size)
    (hl : s'.node.Ledger (w₀.node r) s'.hist V s'.log s'.done s'.todo)
    (hq : (w₀.node r).Quiet (site r).node s'.node (site r).hist s'.hist V (site r).done s'.done)
    (hm : s'.mail.Tallies (w₀.node r) s'.hist V s'.done) (hf : lines s'.hist <+: plan)
    (ht : ∀ h t, .transfer h t ∈ lines s'.hist → t < w₀.size) :
    Coherent w₀ tiles plan net V (Function.update site r s') := by
  have hrank := hw.rank r hr
  constructor
  case ledger =>
    exact (Function.forall_update_iff site fun q s => q < w₀.size →
      s.node.Ledger (w₀.node q) s.hist V s.log s.done s.todo).mpr
      ⟨fun _ => hl, fun q _ => hc.ledger q⟩
  case tallies =>
    exact (Function.forall_update_iff site fun q s => q < w₀.size →
      s.mail.Tallies (w₀.node q) s.hist V s.done).mpr ⟨fun _ => hm, fun q _ => hc.tallies q⟩
  case follows =>
    exact (Function.forall_update_iff site fun q s => q < w₀.size → lines s.hist <+: plan).mpr
      ⟨fun _ => hf, fun q _ => hc.follows q⟩
  case targets =>
    exact (Function.forall_update_iff site fun q s => q < w₀.size →
      ∀ h t, .transfer h t ∈ lines s.hist → t < w₀.size).mpr ⟨fun _ => ht, fun q _ => hc.targets q⟩
  case shipped =>
    intro q hq' k i h t hne hd
    by_cases hqr : q = r
    · subst hqr
      rw [Function.update_self] at hd ⊢
      rcases hq.fresh k i h t hd with hold | ⟨hlen, hn⟩
      · exact (hq.done_iff k i h t hold).trans (hc.shipped q hr k i h t hne hold)
      · -- a line that the owner has just come past has no value
        refine iff_of_false hn fun hV => ?_
        obtain ⟨block, hblock⟩ := Option.ne_none_iff_exists'.mp hV
        obtain ⟨b, hb, hcar, hself, -⟩ := hw.carried hr hf hd
        obtain ⟨k', hk', -⟩ := hc.source_of_carried hw hb hcar hblock
        obtain rfl := hself.resolve_left hne
        obtain ⟨-, -, -, -, hi⟩ := hc.carried hw hr hk'
        exact Nat.not_lt_of_le hlen hi
    · rw [Function.update_of_ne hqr] at hd ⊢
      exact hc.shipped q hq' k i h t hne hd
  case source =>
    intro i block hV
    obtain ⟨q, hq', k, h, t, hne, hd, hval⟩ := hc.source i block hV
    refine ⟨q, hq', k, h, t, hne, ?_⟩
    by_cases hqr : q = r
    · subst hqr
      rw [Function.update_self]
      refine ⟨hq.kept k i h t hd, ?_⟩
      have hdone := (hc.shipped q hr k i h t hne hd).mpr (by rw [hV]; exact Option.some_ne_none _)
      rw [hq.stable k i h t hd (hrank.symm ▸ hne) hdone]
      exact hval
    · rw [Function.update_of_ne hqr]
      exact ⟨hd, hval⟩
  case received =>
    intro q hq' k i h hd hdone
    by_cases hqr : q = r
    · subst hqr
      unfold Asks at hd
      rw [Function.update_self] at hd hdone
      rcases hq.fresh k i h q hd with hold | ⟨-, hn⟩
      · exact hc.received q hr k i h hold ((hq.done_iff k i h q hold).mp hdone)
      · exact absurd hdone hn
    · unfold Asks at hd
      rw [Function.update_of_ne hqr] at hd hdone
      exact hc.received q hq' k i h hd hdone
  case inOrder => exact hc.inOrder
  case wire =>
    refine hc.wire.quiet ?_ ?_ ?_
    · intro q _
      by_cases hqr : q = r
      · subst hqr
        rw [Function.update_self, hq.arrivals]
      · rw [Function.update_of_ne hqr]
    · intro q _ k i h hd
      unfold Asks
      by_cases hqr : q = r
      · subst hqr
        rw [Function.update_self]
        exact hq.kept k i h q hd
      · rw [Function.update_of_ne hqr]
        exact hd
    · intro q _ h i
      exact hc.begun_quiet hr hrank hq q h i

end Coherent

end TiledTensor

import TiledTensor.Proofs.Mail
import TiledTensor.Tensor

/-!
# Messages on their way

`Wire` says what is in the cluster while the ranks exchange tiles: for each tile and each rank
exactly the messages that have been sent and whose receive has not begun, in the order of their
lines, and exactly the receives that have begun before their message was sent.  It is kept when a
message is sent, when a receive begins and when a receive ends, provided that the two ends of a
channel keep to the order of the lines.
-/

namespace TiledTensor

/-- The channel on which a tile is sent. -/
def Tensor.Blueprint.channel (b : Tensor.Blueprint) : Channel := ⟨b.owner, b.tag⟩

variable {α : Type} [Scalar α]

/-- What has become of a receive for a line. -/
def receipt (V : Nat → Option (List α)) (i : Nat) : Receipt :=
  match V i with
  | none => .waiting
  | some block => .delivered (Scalar.encodeBlock block)

theorem receipt_eq_waiting_iff {V : Nat → Option (List α)} {i : Nat} :
    receipt V i = .waiting ↔ V i = none := by
  unfold receipt
  cases V i <;> simp

theorem receipt_eq_delivered {V : Nat → Option (List α)} {i : Nat} (h : V i ≠ none) :
    receipt V i = .delivered (shipment V i) := by
  unfold receipt shipment
  cases hv : V i with
  | none => exact absurd hv h
  | some block => rfl

/-- What is on its way between ranks.  `asks t k i h` says that task `k` of rank `t` is the receive
of tile `h` for line `i`, and `begun t h i` that it has been started. -/
structure Wire (size : Nat) (tiles : List Tensor.Blueprint) (plan : List Line) (net : Cluster)
    (V : Nat → Option (List α)) (arrivals : Rank → List Arrival)
    (asks : Rank → TaskId → Nat → HandleId → Prop) (begun : Rank → HandleId → Nat → Prop) :
    Prop where
  ranks : net.size = size
  whole : net.severed = []
  answered : ∀ t < size, ∀ a ∈ arrivals t, ∃ i, asks t a.id i a.handle ∧ begun t a.handle i ∧
    net.receipts.find? a.ticket = some (receipt V i)
  issued : ∀ t < size, ∀ a ∈ arrivals t, a.ticket < net.nextTicket
  distinct : ∀ t < size, ∀ t' < size, ∀ a ∈ arrivals t, ∀ a' ∈ arrivals t', a.ticket = a'.ticket →
    t = t' ∧ a = a'
  messages : ∀ t < size, ∀ (h : HandleId) b, tiles[h]? = some b → ∃ L,
    Enumerates L (fun i => Carried b.owner h t plan i ∧ V i ≠ none ∧ ¬begun t h i) ∧
      net.messages t b.channel = L.map (shipment V)
  waiters : ∀ t < size, ∀ (h : HandleId) b, tiles[h]? = some b →
    (net.waiters t b.channel).Nodup ∧ ∀ k, k ∈ net.waiters t b.channel ↔
      ∃ a ∈ arrivals t, a.handle = h ∧ a.ticket = k ∧ net.receipts.find? k = some .waiting
  others : ∀ t < size, ∀ ch, (∀ b ∈ tiles, ch ≠ b.channel) →
    net.messages t ch = [] ∧ net.waiters t ch = []

namespace Wire

variable {size : Nat} {tiles : List Tensor.Blueprint} {plan : List Line} {net net' : Cluster}
  {V V' : Nat → Option (List α)} {arrivals arrivals' : Rank → List Arrival}
  {asks asks' : Rank → TaskId → Nat → HandleId → Prop} {begun begun' : Rank → HandleId → Nat → Prop}
  {t : Rank} {h : HandleId} {b : Tensor.Blueprint} {i : Nat} {k : TaskId}

/-- Nothing is on its way in the beginning. -/
theorem nil (size : Nat) (tiles : List Tensor.Blueprint) (plan : List Line)
    (asks : Rank → TaskId → Nat → HandleId → Prop) (begun : Rank → HandleId → Nat → Prop) :
    Wire size tiles plan (Cluster.ofSize size) (fun _ => none : Nat → Option (List α)) (fun _ => [])
      asks begun := by
  have hbox : ∀ t, (Cluster.ofSize size).mailboxes.getD t {} = {} := by
    intro t
    unfold Cluster.ofSize
    rw [List.getD_eq_getElem?_getD, List.getElem?_replicate]
    split <;> rfl
  have hm : ∀ t ch, (Cluster.ofSize size).messages t ch = [] := by
    intro t ch
    rw [Cluster.messages, hbox]
    rfl
  have hw : ∀ t ch, (Cluster.ofSize size).waiters t ch = [] := by
    intro t ch
    rw [Cluster.waiters, hbox]
    rfl
  constructor
  case ranks => simp [Cluster.ofSize, Cluster.size]
  case whole => exact rfl
  case answered =>
    intro t _ a ha
    cases ha
  case issued =>
    intro t _ a ha
    cases ha
  case distinct =>
    intro t _ t' _ a ha
    cases ha
  case messages =>
    intro t _ h b _
    exact ⟨[], .nil fun _ hi => hi.2.1 rfl, hm t _⟩
  case waiters =>
    intro t _ h b _
    rw [hw]
    refine ⟨.nil, fun k => iff_of_false List.not_mem_nil ?_⟩
    rintro ⟨a, ha, -⟩
    cases ha
  case others =>
    intro t _ ch _
    exact ⟨hm t ch, hw t ch⟩

/-- The ranks go on, but nothing is sent or received. -/
theorem quiet (hw : Wire size tiles plan net V arrivals asks begun)
    (harr : ∀ t < size, arrivals' t = arrivals t)
    (hasks : ∀ t < size, ∀ k i h, asks t k i h → asks' t k i h)
    (hbegun : ∀ t < size, ∀ h i, begun' t h i ↔ begun t h i) :
    Wire size tiles plan net V arrivals' asks' begun' := by
  refine ⟨hw.ranks, hw.whole, ?_, ?_, ?_, ?_, ?_, hw.others⟩
  · intro t ht a ha
    obtain ⟨i, hi, hbi, hr⟩ := hw.answered t ht a (harr t ht ▸ ha)
    exact ⟨i, hasks t ht _ i _ hi, (hbegun t ht _ i).mpr hbi, hr⟩
  · intro t ht a ha
    exact hw.issued t ht a (harr t ht ▸ ha)
  · intro t ht t' ht' a ha a' ha'
    exact hw.distinct t ht t' ht' a (harr t ht ▸ ha) a' (harr t' ht' ▸ ha')
  · intro t ht h b hb
    obtain ⟨L, he, hL⟩ := hw.messages t ht h b hb
    exact ⟨L, he.congr fun i => by rw [hbegun t ht], hL⟩
  · intro t ht h b hb
    rw [harr t ht]
    exact hw.waiters t ht h b hb

/-- Tiles have channels of their own. -/
theorem channel_inj (htags : (tiles.map (·.tag)).Nodup) {h h' : HandleId} {b b' : Tensor.Blueprint}
    (hb : tiles[h]? = some b) (hb' : tiles[h']? = some b') (hch : b.channel = b'.channel) :
    h = h' := by
  have htag : b.tag = b'.tag := congrArg Channel.tag hch
  have hl : h < (tiles.map (·.tag)).length := by
    rw [List.length_map]
    exact (List.getElem?_eq_some_iff.mp hb).1
  refine (List.getElem?_inj hl htags).mp ?_
  rw [List.getElem?_map, List.getElem?_map, hb, hb', Option.map_some, Option.map_some, htag]

/-- A line belongs to one tile and one rank. -/
theorem carried_unique {o o' : Rank} {h h' : HandleId} {t t' : Rank}
    (hc : Carried o h t plan i) (hc' : Carried o' h' t' plan i) : h = h' ∧ t = t' := by
  have heq := hc.1.symm.trans hc'.1
  rw [Option.some.injEq] at heq
  exact Line.transfer.inj heq

/-! ## One channel changes -/

/-- A receive of a tile by a rank waits for its message. -/
def Awaits (net : Cluster) (arrivals : List Arrival) (h : HandleId) (k : Ticket) : Prop :=
  ∃ a ∈ arrivals, a.handle = h ∧ a.ticket = k ∧ net.receipts.find? k = some .waiting

section

variable {ms : List Payload} {ws : List Ticket}

/-- The messages for a tile and a rank are those of its channel, and the others stay. -/
theorem messages_of_changes (hw : Wire size tiles plan net V arrivals asks begun)
    (htags : (tiles.map (·.tag)).Nodup) (hb : tiles[h]? = some b)
    (hch : net.Changes net' t b.channel ms ws)
    (hself : ∃ L, Enumerates L (fun j => Carried b.owner h t plan j ∧ V' j ≠ none ∧ ¬begun' t h j) ∧
      ms = L.map (shipment V'))
    (hother : ∀ o t' h' j, Carried o h' t' plan j → ¬(t' = t ∧ h' = h) →
      V' j = V j ∧ (begun' t' h' j ↔ begun t' h' j)) :
    ∀ t' < size, ∀ (h' : HandleId) b', tiles[h']? = some b' → ∃ L,
      Enumerates L (fun j => Carried b'.owner h' t' plan j ∧ V' j ≠ none ∧ ¬begun' t' h' j) ∧
        net'.messages t' b'.channel = L.map (shipment V') := by
  intro t' ht' h' b' hb'
  by_cases hsame : t' = t ∧ h' = h
  · obtain ⟨rfl, rfl⟩ := hsame
    obtain rfl : b = b' := Option.some.inj (hb.symm.trans hb')
    obtain ⟨L, he, rfl⟩ := hself
    exact ⟨L, he, hch.messages_self⟩
  · obtain ⟨L, he, hL⟩ := hw.messages t' ht' h' b' hb'
    refine ⟨L, he.congr fun j => and_congr_right fun hj => ?_, ?_⟩
    · obtain ⟨hV, hbegun⟩ := hother _ t' h' j hj hsame
      rw [hV, hbegun]
    · rw [hch.messages_other t' _ fun hcc => hsame ⟨hcc.1, channel_inj htags hb' hb hcc.2⟩, hL]
      refine List.map_congr_left fun j hj => ?_
      exact (shipment_eq (hother _ t' h' j ((he.mem j).mp hj).1 hsame).1).symm

/-- The receives of a tile that wait at a rank are those of its channel, and the others stay. -/
theorem waiters_of_changes (hw : Wire size tiles plan net V arrivals asks begun)
    (htags : (tiles.map (·.tag)).Nodup) (hb : tiles[h]? = some b)
    (hch : net.Changes net' t b.channel ms ws)
    (hself : ws.Nodup ∧ ∀ k, k ∈ ws ↔ Awaits net' (arrivals' t) h k)
    (hother : ∀ t' < size, ∀ h', ¬(t' = t ∧ h' = h) → ∀ k,
      Awaits net' (arrivals' t') h' k ↔ Awaits net (arrivals t') h' k) :
    ∀ t' < size, ∀ (h' : HandleId) b', tiles[h']? = some b' →
      (net'.waiters t' b'.channel).Nodup ∧ ∀ k, k ∈ net'.waiters t' b'.channel ↔
        Awaits net' (arrivals' t') h' k := by
  intro t' ht' h' b' hb'
  by_cases hsame : t' = t ∧ h' = h
  · obtain ⟨rfl, rfl⟩ := hsame
    obtain rfl : b = b' := Option.some.inj (hb.symm.trans hb')
    rw [hch.waiters_self]
    exact hself
  · obtain ⟨hnodup, hmem⟩ := hw.waiters t' ht' h' b' hb'
    rw [hch.waiters_other t' _ fun hcc => hsame ⟨hcc.1, channel_inj htags hb' hb hcc.2⟩]
    exact ⟨hnodup, fun k => (hmem k).trans (hother t' ht' h' hsame k).symm⟩

/-- The channels that belong to no tile stay empty. -/
theorem others_of_changes (hw : Wire size tiles plan net V arrivals asks begun)
    (hb : tiles[h]? = some b) (hch : net.Changes net' t b.channel ms ws) :
    ∀ t' < size, ∀ ch, (∀ b ∈ tiles, ch ≠ b.channel) →
      net'.messages t' ch = [] ∧ net'.waiters t' ch = [] := by
  intro t' ht' ch hother
  have hne : ¬(t' = t ∧ ch = b.channel) := fun hc => hother b (List.mem_of_getElem? hb) hc.2
  rw [hch.messages_other t' ch hne, hch.waiters_other t' ch hne]
  exact hw.others t' ht' ch hother

end

/-! ## A message is sent -/

/-- The messages of other lines stay what they are. -/
theorem map_shipment_update (hnone : V i = none) (block : List α) {L : List Nat} {p : Nat → Prop}
    (he : Enumerates L p) (hp : ∀ j, p j → V j ≠ none) :
    L.map (shipment (Function.update V i (some block))) = L.map (shipment V) := by
  refine List.map_congr_left ?_
  intro j hj
  refine shipment_eq (Function.update_of_ne ?_ _ _)
  rintro rfl
  exact hp j ((he.mem j).mp hj) hnone

theorem shipment_update_self (block : List α) :
    shipment (Function.update V i (some block)) i = Scalar.encodeBlock block := by
  unfold shipment
  rw [Function.update_self]
  rfl

omit [Scalar α] in
/-- The lines for other tiles and ranks are other lines. -/
theorem update_of_carried {o o' : Rank} {h' : HandleId} {t' : Rank} {j : Nat}
    (hc : Carried o h t plan i) (hc' : Carried o' h' t' plan j) (hne : ¬(t' = t ∧ h' = h))
    (v : Option (List α)) : Function.update V i v j = V j := by
  refine Function.update_of_ne ?_ _ _
  rintro rfl
  obtain ⟨rfl, rfl⟩ := carried_unique hc hc'
  exact hne ⟨rfl, rfl⟩

/-- What waits at a rank for a tile is there for the line of its only receive. -/
theorem waiting_arrival (hw : Wire size tiles plan net V arrivals asks begun) (ht : t < size)
    (hb : tiles[h]? = some b) (hk : k ∈ net.waiters t b.channel) :
    ∃ a ∈ arrivals t, a.handle = h ∧ a.ticket = k ∧ net.receipts.find? k = some .waiting ∧
      ∃ i, asks t a.id i h ∧ begun t h i ∧ V i = none := by
  obtain ⟨a, ha, rfl, rfl, hr⟩ := ((hw.waiters t ht h b hb).2 k).mp hk
  obtain ⟨i, hi, hbi, hr'⟩ := hw.answered t ht a ha
  rw [hr, Option.some.injEq] at hr'
  exact ⟨a, ha, rfl, rfl, hr, i, hi, hbi, receipt_eq_waiting_iff.mp hr'.symm⟩

/-- No more than one receive of a tile waits at a rank. -/
theorem eq_nil_of_waiters_cons (hw : Wire size tiles plan net V arrivals asks begun) (ht : t < size)
    (hb : tiles[h]? = some b)
    (hone : ∀ a ∈ arrivals t, ∀ a' ∈ arrivals t, a.handle = h → a'.handle = h → a = a')
    {k : Ticket} {ks : List Ticket} (hks : net.waiters t b.channel = k :: ks) : ks = [] := by
  refine List.eq_nil_iff_forall_not_mem.mpr fun k' hk' => ?_
  obtain ⟨a, ha, hah, rfl, -⟩ := hw.waiting_arrival ht hb (hks ▸ List.mem_cons_self)
  obtain ⟨a', ha', hah', rfl, -⟩ :=
    hw.waiting_arrival ht hb (hks ▸ List.mem_cons_of_mem a.ticket hk')
  obtain rfl := hone a ha a' ha' hah hah'
  have hnodup := (hw.waiters t ht h b hb).1
  rw [hks, List.nodup_cons] at hnodup
  exact hnodup.1 hk'

/-- A message is sent for which nobody waits. -/
theorem send_early (hw : Wire size tiles plan net V arrivals asks begun)
    (htags : (tiles.map (·.tag)).Nodup)
    (hline : ∀ t < size, ∀ k i h, asks t k i h → plan[i]? = some (.transfer h t))
    (ht : t < size) (hb : tiles[h]? = some b) (hc : Carried b.owner h t plan i) (hnone : V i = none)
    {block : List α} (hlast : ∀ j, Carried b.owner h t plan j → V j ≠ none → j < i)
    (hbegun : begun t h i → ∃ a ∈ arrivals t, a.handle = h ∧ ∀ j, asks t a.id j h → j = i)
    (hnil : net.waiters t b.channel = []) :
    ∃ net', net.send b.owner t b.tag (Scalar.encodeBlock block) = .ok net' ∧
      Wire size tiles plan net' (Function.update V i (some block)) arrivals asks begun := by
  have hsev : (b.owner, t) ∉ net.severed := by
    rw [hw.whole]
    exact List.not_mem_nil
  obtain ⟨net', hsend, hrec, hnext, hch⟩ := Cluster.send_of_waiters_nil
    (Scalar.encodeBlock block) (hw.ranks.symm ▸ ht) hsev hnil
  -- the receive has not begun, or it would wait
  have hnb : ¬begun t h i := by
    intro hbi
    obtain ⟨a, ha, rfl, hone⟩ := hbegun hbi
    obtain ⟨j, hj, -, hr⟩ := hw.answered t ht a ha
    rw [hone j hj, receipt_eq_waiting_iff.mpr hnone] at hr
    have hmem := ((hw.waiters t ht a.handle b hb).2 a.ticket).mpr ⟨a, ha, rfl, rfl, hr⟩
    rw [hnil] at hmem
    cases hmem
  have hself : ∀ t' h' j, begun t' h' j → plan[j]? = some (.transfer h' t') → j ≠ i := by
    rintro t' h' j hbj hj rfl
    rw [hc.1, Option.some.injEq] at hj
    obtain ⟨rfl, rfl⟩ := Line.transfer.inj hj
    exact hnb hbj
  refine ⟨net', hsend, hch.size.trans hw.ranks, hch.severed.trans hw.whole, ?_, ?_, hw.distinct,
    ?_, ?_, ?_⟩
  · intro t' ht' a ha
    obtain ⟨j, hj, hbj, hr⟩ := hw.answered t' ht' a ha
    refine ⟨j, hj, hbj, ?_⟩
    rw [hrec, hr]
    unfold receipt
    rw [Function.update_of_ne (hself t' _ j hbj (hline t' ht' _ j _ hj))]
  · intro t' ht' a ha
    rw [hnext]
    exact hw.issued t' ht' a ha
  · obtain ⟨L, he, hL⟩ := hw.messages t ht h b hb
    refine hw.messages_of_changes htags hb hch ⟨L ++ [i], ?_, ?_⟩ fun o t' h' j hj hne => ?_
    · refine he.concat (fun j hj => hlast j hj.1 hj.2.1) fun j => ?_
      by_cases hji : j = i
      · subst hji
        rw [Function.update_self]
        exact iff_of_true ⟨hc, Option.some_ne_none _, hnb⟩ (Or.inr rfl)
      · rw [Function.update_of_ne hji]
        exact (or_iff_left hji).symm
    · rw [List.map_append, map_shipment_update hnone block he fun j hj => hj.2.1, List.map_singleton,
        shipment_update_self, ← hL]
      rfl
    · exact ⟨update_of_carried hc hj hne _, Iff.rfl⟩
  · refine hw.waiters_of_changes htags hb hch ?_ fun t' _ h' _ k => ?_
    · have hnone := hw.waiters t ht h b hb
      rw [hnil] at hnone
      unfold Awaits
      rw [hrec]
      exact hnone
    · unfold Awaits
      rw [hrec]
  · exact hw.others_of_changes hb hch

/-- A message is sent to a receive that waits for it. -/
theorem send_late (hw : Wire size tiles plan net V arrivals asks begun)
    (htags : (tiles.map (·.tag)).Nodup)
    (hline : ∀ t < size, ∀ k i h, asks t k i h → plan[i]? = some (.transfer h t))
    (ht : t < size) (hb : tiles[h]? = some b) (hc : Carried b.owner h t plan i) (hnone : V i = none)
    {block : List α}
    (hwait : ∀ a ∈ arrivals t, ∀ j, a.handle = h → asks t a.id j h → V j = none → j = i)
    (hone : ∀ a ∈ arrivals t, ∀ a' ∈ arrivals t, a.handle = h → a'.handle = h → a = a')
    (hne : net.waiters t b.channel ≠ []) :
    ∃ net', net.send b.owner t b.tag (Scalar.encodeBlock block) = .ok net' ∧
      Wire size tiles plan net' (Function.update V i (some block)) arrivals asks begun := by
  obtain ⟨k, ks, hks⟩ := List.exists_cons_of_ne_nil hne
  obtain ⟨a, ha, hah, rfl, hr, j, hj, hbj, hVj⟩ :=
    hw.waiting_arrival ht hb (hks ▸ List.mem_cons_self)
  obtain rfl := hwait a ha j hah hj hVj
  have hsev : (b.owner, t) ∉ net.severed := by
    rw [hw.whole]
    exact List.not_mem_nil
  obtain ⟨net', hsend, hrec, hnext, hch⟩ := Cluster.send_of_waiters_cons
    (Scalar.encodeBlock block) (hw.ranks.symm ▸ ht) hsev hks hr
  refine ⟨net', hsend, hch.size.trans hw.ranks, hch.severed.trans hw.whole, ?_, ?_, hw.distinct,
    ?_, ?_, ?_⟩
  · intro t' ht' a' ha'
    obtain ⟨j', hj', hbj', hr'⟩ := hw.answered t' ht' a' ha'
    refine ⟨j', hj', hbj', ?_⟩
    by_cases htick : a'.ticket = a.ticket
    · obtain ⟨rfl, rfl⟩ := hw.distinct t' ht' t ht a' ha' a ha htick
      rw [hr, Option.some.injEq] at hr'
      have hVj' := receipt_eq_waiting_iff.mp hr'.symm
      obtain rfl := hwait a' ha' j' hah (hah ▸ hj') hVj'
      rw [hrec, Table.find?_put_self]
      unfold receipt
      rw [Function.update_self]
    · rw [hrec, Table.find?_put_of_ne _ _ htick, hr']
      unfold receipt
      rw [Function.update_of_ne]
      rintro rfl
      have hsame := (hline t' ht' _ j' _ hj').symm.trans hc.1
      rw [Option.some.injEq] at hsame
      obtain ⟨hah', rfl⟩ := Line.transfer.inj hsame
      exact htick (by rw [hone a ha a' ha' hah hah'])
  · intro t' ht' a' ha'
    rw [hnext]
    exact hw.issued t' ht' a' ha'
  · obtain ⟨L, he, hL⟩ := hw.messages t ht h b hb
    refine hw.messages_of_changes htags hb hch ⟨L, he.congr fun i => ?_, ?_⟩
      fun o t' h' i hi hne => ⟨update_of_carried hc hi hne _, Iff.rfl⟩
    · refine and_congr_right fun hi => ?_
      by_cases hij : i = j
      · subst hij
        exact iff_of_false (fun hn => hn.2 hbj) fun hn => hn.2 hbj
      · rw [Function.update_of_ne hij]
    · rw [map_shipment_update hnone block he fun j hj => hj.2.1, ← hL]
      rfl
  · refine hw.waiters_of_changes htags hb hch ?_ fun t' ht' h' hne k => ?_
    · rw [hw.eq_nil_of_waiters_cons ht hb hone hks]
      refine ⟨.nil, fun k => iff_of_false List.not_mem_nil ?_⟩
      rintro ⟨a', ha', hah', rfl, hr'⟩
      obtain rfl := hone a ha a' ha' hah hah'
      rw [hrec, Table.find?_put_self, Option.some.injEq] at hr'
      cases hr'
    · refine exists_congr fun a' => and_congr_right fun ha' => and_congr_right fun hah' =>
        and_congr_right fun htick => ?_
      rw [hrec, Table.find?_put_of_ne]
      intro hk
      obtain ⟨rfl, rfl⟩ := hw.distinct t' ht' t ht a' ha' a ha (htick.trans hk)
      exact hne ⟨rfl, hah'.symm.trans hah⟩
  · exact hw.others_of_changes hb hch

/-! ## A receive begins -/

/-- The cluster takes note of a receive, and answers it if its message has come. -/
theorem exists_receive (hw : Wire size tiles plan net V arrivals asks begun) (ht : t < size)
    (hb : tiles[h]? = some b) (ho : b.owner < size) (hc : Carried b.owner h t plan i)
    (hnew : ¬begun t h i)
    (hfirst : ∀ j, Carried b.owner h t plan j → V j ≠ none → ¬begun t h j → i ≤ j ∧ V i ≠ none) :
    ∃ net' L, net.receive t b.owner b.tag = (net', net.nextTicket) ∧
      net'.receipts = net.receipts.put net.nextTicket (receipt V i) ∧
      net'.nextTicket = net.nextTicket + 1 ∧
      Enumerates L (fun j => (Carried b.owner h t plan j ∧ V j ≠ none ∧ ¬begun t h j) ∧ j ≠ i) ∧
      net.Changes net' t b.channel (L.map (shipment V))
        (net.waiters t b.channel ++ if V i = none then [net.nextTicket] else []) := by
  obtain ⟨L, he, hL⟩ := hw.messages t ht h b hb
  by_cases hnone : V i = none
  · have hnil : L = [] := by
      refine List.eq_nil_iff_forall_not_mem.mpr ?_
      intro j hj
      obtain ⟨hcj, hVj, hbj⟩ := (he.mem j).mp hj
      exact (hfirst j hcj hVj hbj).2 hnone
    subst hnil
    obtain ⟨net', hrcv, hrec, hnext, hch⟩ := Cluster.receive_of_messages_nil
      (hw.ranks.symm ▸ ht) (hw.ranks.symm ▸ ho) hL
    refine ⟨net', [], hrcv, ?_, hnext, ?_, ?_⟩
    · rw [hrec, receipt_eq_waiting_iff.mpr hnone]
    · refine he.congr fun j => and_iff_left_of_imp ?_
      rintro hj rfl
      exact hj.2.1 hnone
    · rw [if_pos hnone]
      exact hch
  · obtain ⟨L, rfl⟩ := he.eq_cons ⟨hc, hnone, hnew⟩ fun j hj => (hfirst j hj.1 hj.2.1 hj.2.2).1
    obtain ⟨net', hrcv, hrec, hnext, hch⟩ := Cluster.receive_of_messages_cons
      (hw.ranks.symm ▸ ht) (hw.ranks.symm ▸ ho) hL
    refine ⟨net', L, hrcv, ?_, hnext, he.tail fun _ => Iff.rfl, ?_⟩
    · rw [hrec, receipt_eq_delivered hnone]
    · rw [if_neg hnone, List.append_nil]
      exact hch

theorem mem_of_receive {a₀ : Arrival}
    (harr : ∀ r, arrivals' r = if r = t then arrivals t ++ [a₀] else arrivals r) (r : Rank)
    (a : Arrival) : a ∈ arrivals' r ↔ a ∈ arrivals r ∨ (r = t ∧ a = a₀) := by
  rw [harr]
  by_cases hr : r = t
  · rw [if_pos hr, List.mem_append, List.mem_singleton, hr, and_iff_right rfl]
  · rw [if_neg hr]
    exact (or_iff_left fun h => hr h.1).symm

/-- The receive that begins waits if its message has not come, and the others wait as they did. -/
theorem awaits_of_receive {a₀ : Arrival}
    (hrec : net'.receipts = net.receipts.put a₀.ticket (receipt V i))
    (hfresh : ∀ t < size, ∀ a ∈ arrivals t, a.ticket ≠ a₀.ticket)
    (hmem : ∀ r a, a ∈ arrivals' r ↔ a ∈ arrivals r ∨ (r = t ∧ a = a₀)) {r : Rank} (hr : r < size)
    (h : HandleId) (k : Ticket) :
    Awaits net' (arrivals' r) h k ↔ Awaits net (arrivals r) h k ∨
      (r = t ∧ a₀.handle = h ∧ k = a₀.ticket ∧ V i = none) := by
  have hold : ∀ a ∈ arrivals r, net'.receipts.find? a.ticket = net.receipts.find? a.ticket := by
    intro a ha
    rw [hrec, Table.find?_put_of_ne _ _ (hfresh r hr a ha)]
  have hnew : net'.receipts.find? a₀.ticket = some .waiting ↔ V i = none := by
    rw [hrec, Table.find?_put_self, Option.some.injEq, receipt_eq_waiting_iff]
  constructor
  · rintro ⟨a, ha, hah, rfl, hwaits⟩
    rcases (hmem r a).mp ha with ha | ⟨hrt, rfl⟩
    · exact Or.inl ⟨a, ha, hah, rfl, (hold a ha).symm.trans hwaits⟩
    · exact Or.inr ⟨hrt, hah, rfl, hnew.mp hwaits⟩
  · rintro (⟨a, ha, hah, rfl, hwaits⟩ | ⟨hrt, hah, rfl, hnone⟩)
    · exact ⟨a, (hmem r a).mpr (Or.inl ha), hah, rfl, (hold a ha).trans hwaits⟩
    · exact ⟨a₀, (hmem r a₀).mpr (Or.inr ⟨hrt, rfl⟩), hah, rfl, hnew.mpr hnone⟩

/-- A receive begins. -/
theorem receive (hw : Wire size tiles plan net V arrivals asks begun)
    (htags : (tiles.map (·.tag)).Nodup) (ht : t < size) (hb : tiles[h]? = some b)
    (ho : b.owner < size) (hc : Carried b.owner h t plan i) (hnew : ¬begun t h i)
    (hfirst : ∀ j, Carried b.owner h t plan j → V j ≠ none → ¬begun t h j → i ≤ j ∧ V i ≠ none)
    (hk : asks t k i h) {name : String}
    (harr : ∀ r, arrivals' r =
      if r = t then arrivals t ++ [⟨k, name, h, net.nextTicket⟩] else arrivals r)
    (hbegun : ∀ t' h' j, begun' t' h' j ↔ begun t' h' j ∨ (t' = t ∧ h' = h ∧ j = i)) :
    ∃ net', net.receive t b.owner b.tag = (net', net.nextTicket) ∧
      Wire size tiles plan net' V arrivals' asks begun' := by
  obtain ⟨net', L, hrcv, hrec, hnext, he, hch⟩ := hw.exists_receive ht hb ho hc hnew hfirst
  have hmem := mem_of_receive harr
  have hfresh : ∀ r < size, ∀ a ∈ arrivals r, a.ticket ≠ net.nextTicket :=
    fun r hr a ha => Nat.ne_of_lt (hw.issued r hr a ha)
  have hawaits : ∀ r < size, ∀ h' k', Awaits net' (arrivals' r) h' k' ↔
      Awaits net (arrivals r) h' k' ∨ (r = t ∧ h = h' ∧ k' = net.nextTicket ∧ V i = none) :=
    fun r hr => awaits_of_receive hrec hfresh hmem hr
  refine ⟨net', hrcv, hch.size.trans hw.ranks, hch.severed.trans hw.whole, ?_, ?_, ?_, ?_, ?_,
    hw.others_of_changes hb hch⟩
  · intro r hr a ha
    rcases (hmem r a).mp ha with ha | ⟨rfl, rfl⟩
    · obtain ⟨j, hj, hbj, hrj⟩ := hw.answered r hr a ha
      refine ⟨j, hj, (hbegun _ _ _).mpr (Or.inl hbj), ?_⟩
      rw [hrec, Table.find?_put_of_ne _ _ (hfresh r hr a ha), hrj]
    · refine ⟨i, hk, (hbegun _ _ _).mpr (Or.inr ⟨rfl, rfl, rfl⟩), ?_⟩
      rw [hrec, Table.find?_put_self]
  · intro r hr a ha
    rw [hnext]
    rcases (hmem r a).mp ha with ha | ⟨rfl, rfl⟩
    · exact Nat.lt_succ_of_lt (hw.issued r hr a ha)
    · exact Nat.lt_succ_self _
  · intro r hr r' hr' a ha a' ha' heq
    rcases (hmem r a).mp ha with ha | ⟨rfl, rfl⟩ <;>
      rcases (hmem r' a').mp ha' with ha' | ⟨rfl, rfl⟩
    · exact hw.distinct r hr r' hr' a ha a' ha' heq
    · exact absurd heq (hfresh r hr a ha)
    · exact absurd heq.symm (hfresh r' hr' a' ha')
    · exact ⟨rfl, rfl⟩
  · refine hw.messages_of_changes htags hb hch ⟨L, he.congr fun j => ?_, rfl⟩
      fun o t' h' j _ hne => ⟨rfl, ?_⟩
    · rw [hbegun, and_iff_right rfl, and_iff_right rfl, not_or, and_assoc, and_assoc]
    · rw [hbegun]
      exact or_iff_left fun hb => hne ⟨hb.1, hb.2.1⟩
  · refine hw.waiters_of_changes htags hb hch ?_ fun t' ht' h' hne k' => ?_
    · obtain ⟨hnodup, hwait⟩ := hw.waiters t ht h b hb
      have hnot : net.nextTicket ∉ net.waiters t b.channel := by
        intro hin
        obtain ⟨a, ha, -, hak, -⟩ := (hwait _).mp hin
        exact hfresh t ht a ha hak
      refine ⟨?_, fun k' => ?_⟩
      · split
        · refine hnodup.append (List.nodup_singleton _) fun k' hk' hnk => ?_
          exact hnot (List.mem_singleton.mp hnk ▸ hk')
        · rwa [List.append_nil]
      · rw [hawaits t ht, List.mem_append, hwait]
        refine or_congr Iff.rfl ?_
        rw [and_iff_right rfl, and_iff_right rfl]
        split
        · rename_i hnone
          rw [List.mem_singleton, and_iff_left hnone]
        · rename_i hsome
          exact iff_of_false List.not_mem_nil fun h => hsome h.2
    · rw [hawaits t' ht']
      exact or_iff_left fun h => hne ⟨h.1, h.2.1.symm⟩

/-! ## A receive ends -/

/-- A receive that has been answered ends. -/
theorem arrive (hw : Wire size tiles plan net V arrivals asks begun) (ht : t < size) {j : Nat}
    {a : Arrival} (ha : (arrivals t)[j]? = some a)
    (hr : net.receipts.find? a.ticket ≠ some .waiting)
    (hids : ((arrivals t).map (·.id)).Nodup)
    (harr : ∀ r, arrivals' r = if r = t then (arrivals t).eraseIdx j else arrivals r) :
    Wire size tiles plan (net.forget a.ticket) V arrivals' asks begun := by
  have hat : a ∈ arrivals t := List.mem_of_getElem? ha
  have hmem : ∀ r < size, ∀ a', a' ∈ arrivals' r ↔ a' ∈ arrivals r ∧ a'.ticket ≠ a.ticket := by
    intro r hr a'
    rw [harr]
    split
    · rename_i hrt
      subst hrt
      rw [List.mem_eraseIdx_iff_getElem?]
      constructor
      · rintro ⟨i, hij, hi⟩
        have hi' := List.mem_of_getElem? hi
        refine ⟨hi', ?_⟩
        intro heq
        obtain ⟨-, rfl⟩ := hw.distinct r hr r hr a' hi' a hat heq
        refine hij ((List.getElem?_inj ?_ hids).mp ?_)
        · rw [List.length_map]
          exact lt_of_getElem?_eq_some hi
        · rw [List.getElem?_map, List.getElem?_map, hi, ha]
      · rintro ⟨ha', hne⟩
        obtain ⟨i, hi⟩ := List.getElem?_of_mem ha'
        refine ⟨i, ?_, hi⟩
        rintro rfl
        rw [ha, Option.some.injEq] at hi
        exact hne (by rw [hi])
    · rename_i hrt
      refine (and_iff_left_of_imp fun ha' heq => ?_).symm
      exact hrt (hw.distinct r hr t ht a' ha' a hat heq).1
  have hfind : ∀ k, k ≠ a.ticket →
      (net.forget a.ticket).receipts.find? k = net.receipts.find? k :=
    fun k hk => Table.find?_erase_of_ne _ hk
  refine ⟨hw.ranks, hw.whole, ?_, ?_, ?_, hw.messages, ?_, hw.others⟩
  · intro r hr a' ha'
    obtain ⟨hin, hne⟩ := (hmem r hr a').mp ha'
    obtain ⟨i, hi, hbi, hri⟩ := hw.answered r hr a' hin
    exact ⟨i, hi, hbi, (hfind _ hne).trans hri⟩
  · intro r hr a' ha'
    exact hw.issued r hr a' ((hmem r hr a').mp ha').1
  · intro r hr r' hr' a' ha' a'' ha'' heq
    exact hw.distinct r hr r' hr' a' ((hmem r hr a').mp ha').1 a'' ((hmem r' hr' a'').mp ha'').1 heq
  · intro r hr' h' b' hb'
    obtain ⟨hnodup, hwait⟩ := hw.waiters r hr' h' b' hb'
    refine ⟨hnodup, fun k => (hwait k).trans ?_⟩
    constructor
    · rintro ⟨a', ha', hah, rfl, hwaiting⟩
      have hne : a'.ticket ≠ a.ticket := fun heq => hr (heq ▸ hwaiting)
      exact ⟨a', (hmem r hr' a').mpr ⟨ha', hne⟩, hah, rfl, (hfind _ hne).trans hwaiting⟩
    · rintro ⟨a', ha', hah, rfl, hwaiting⟩
      obtain ⟨hin, hne⟩ := (hmem r hr' a').mp ha'
      exact ⟨a', hin, hah, rfl, (hfind _ hne).symm.trans hwaiting⟩

end Wire

end TiledTensor

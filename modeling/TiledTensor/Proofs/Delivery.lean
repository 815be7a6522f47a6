import TiledTensor.Proofs.Coherence

/-!
# Delivery

The three things that ranks do with each other keep them coherent: an owner sends what a line says,
a target begins to receive it, and what has come is stored.
-/

namespace TiledTensor

namespace Coherent

variable {α : Type} [Scalar α] {w₀ : World α} {tiles : List Tensor.Blueprint} {plan : List Line}
  {net net' : Cluster} {V : Nat → Option (List α)} {site : Rank → Site α} {o r : Rank}
  {h : HandleId} {i j : Nat} {k : TaskId} {b : Tensor.Blueprint} {s' : Site α} {s : Scheduler α}
  {t : Task α} {todo : List (Task α)} {block : List α}

/-! ## The order of lines -/

/-- A line has no value before it is sent. -/
theorem value_of_next (hc : Coherent w₀ tiles plan net V site) (ho : o < w₀.size)
    (htodo : (site o).todo = t :: todo)
    (hs : (site o).node.scheduler = some s)
    (hd : ((w₀.node o).duties (site o).hist)[t.id]? = some (i, .transfer h r)) (hne : o ≠ r) :
    V i = none := by
  have hl := hc.ledger o ho
  rw [htodo] at hl
  obtain ⟨-, hn, -⟩ := hl.account.orderly.next hs
  exact Decidable.byContradiction fun hV => hn ((hc.shipped o ho t.id i h r hne hd).mpr hV)

section

variable (hw : w₀.Common tiles plan) (hc : Coherent w₀ tiles plan net V site)

include hw hc

/-- When a line is sent, the earlier transfers of the tile to the rank have been sent. -/
theorem sent_before (ho : o < w₀.size) (htodo : (site o).todo = t :: todo)
    (hs : (site o).node.scheduler = some s)
    (hd : ((w₀.node o).duties (site o).hist)[t.id]? = some (i, .transfer h r)) (hne : o ≠ r)
    (hb : tiles[h]? = some b) (hcar : Carried b.owner h r plan j) (hji : j < i) : V j ≠ none := by
  obtain ⟨b', hb', -, hself, hi⟩ := hc.carried hw ho hd
  obtain rfl : b = b' := Option.some.inj (hb.symm.trans hb')
  have hrank := hw.rank o ho
  obtain ⟨k, hk⟩ := hc.exists_duty hw ho hb hcar (Nat.lt_trans hji hi)
    (Or.inr (hself.resolve_left hne))
  have hl := hc.ledger o ho
  rw [htodo] at hl
  exact (hc.shipped o ho k j h r hne hk).mp
    (hl.done_of_earlier_send hs hd (hrank.symm ▸ hne) hk (hrank.symm ▸ hne)
      (Node.lt_of_line_lt hk hd hji))

/-- When a line is received, the earlier transfers of the tile to the rank have been received. -/
theorem received_before (hr : r < w₀.size) (hk : Asks w₀ site r k i h) (hb : tiles[h]? = some b)
    (hcar : Carried b.owner h r plan j) (hji : j < i) :
    ∃ k', Asks w₀ site r k' j h ∧ Precedes (site r).log k' k := by
  obtain ⟨b', hb', -, -, hi⟩ := hc.carried hw hr hk
  obtain rfl : b = b' := Option.some.inj (hb.symm.trans hb')
  obtain ⟨k', hk'⟩ := hc.exists_duty hw hr hb hcar (Nat.lt_trans hji hi) (Or.inl rfl)
  refine ⟨k', hk', ?_⟩
  exact (hc.ledger r hr).receive_precedes (hw.rank r hr) hk' hk (Node.lt_of_line_lt hk' hk hji)

/-! ## What an owner sends -/

/-- The cluster takes the message for a line. -/
theorem wire_send (block : List α) (ho : o < w₀.size) (htodo : (site o).todo = t :: todo)
    (hs : (site o).node.scheduler = some s)
    (hd : ((w₀.node o).duties (site o).hist)[t.id]? = some (i, .transfer h r)) (hne : o ≠ r)
    (hb : tiles[h]? = some b) :
    ∃ net', net.send o r b.tag (Scalar.encodeBlock block) = .ok net' ∧
      Wire w₀.size tiles plan net' (Function.update V i (some block))
        (fun r => (site r).node.arrivals) (Asks w₀ site) (Begun w₀ site) := by
  obtain ⟨b', hb', hcar, hself, hi⟩ := hc.carried hw ho hd
  obtain rfl : b = b' := Option.some.inj (hb.symm.trans hb')
  obtain rfl := hself.resolve_left hne
  have hnone := hc.value_of_next ho htodo hs hd hne
  have hr : r < w₀.size := hc.target_lt ho hd
  have hrank := hw.rank r hr
  have hline : ∀ q < w₀.size, ∀ k i h, Asks w₀ site q k i h → plan[i]? = some (.transfer h q) := by
    intro q hq k i h hk
    obtain ⟨_, _, hcar', _⟩ := hc.carried hw hq hk
    exact hcar'.1
  by_cases hnil : net.waiters r b.channel = []
  · refine hc.wire.send_early hw.tags hline hr hb hcar hnone ?_ ?_ hnil
    · intro j hj hVj
      rcases Nat.lt_trichotomy j i with hji | rfl | hij
      · exact hji
      · exact absurd hnone hVj
      · exact absurd hnone (hc.inOrder h b hb r i j hcar hj hij hVj)
    · rintro ⟨k, hk, hdone | ⟨a, ha, rfl⟩⟩
      · exact absurd hnone (hc.received r hr k i h hk hdone)
      · obtain ⟨i', hi', -, -⟩ := hc.wire.answered r hr a ha
        exact ⟨a, ha, (hi'.unique hk).2, fun j hj => (hj.unique hk).1⟩
  · refine hc.wire.send_late hw.tags hline hr hb hcar hnone ?_ ?_ hnil
    · -- a receive waits for the first line without a value
      intro a ha j hah hj hVj
      obtain ⟨b', hb', hcarj, -⟩ := hc.carried hw hr hj
      obtain rfl : b = b' := Option.some.inj (hb.symm.trans hb')
      rcases Nat.lt_trichotomy j i with hji | rfl | hij
      · exact absurd hVj (hc.sent_before hw ho htodo hs hd hne hb hcarj hji)
      · rfl
      · obtain ⟨k', hk', hprec⟩ := hc.received_before hw hr hj hb hcar hij
        have hsound := (hc.ledger r hr).account.orderly.sound
        exact absurd hnone
          (hc.received r hr k' i h hk' (hsound.first k' a.id hprec (Or.inr (Or.inl ⟨a, ha, rfl⟩))))
    · intro a ha a' ha' hah hah'
      exact (hc.ledger r hr).arrival_unique ha ha' (hah.trans hah'.symm)

end

/-- A half of a transfer that is done has its value. -/
theorem value_of_done (hc : Coherent w₀ tiles plan net V site) (ho : o < w₀.size)
    (hd : ((w₀.node o).duties (site o).hist)[k]? = some (i, .transfer h r))
    (hdone : (site o).done k) : V i ≠ none := by
  by_cases hne : o = r
  · subst hne
    exact hc.received o ho k i h hd hdone
  · exact (hc.shipped o ho k i h r hne hd).mp hdone

/-! ## One site goes on -/

section

variable {V' : Nat → Option (List α)}

/-- A line that a rank has sent is not sent by another one. -/
theorem sender_unique (hw : w₀.Common tiles plan) (hc : Coherent w₀ tiles plan net V site)
    {q : Rank} {k' : TaskId} {h' : HandleId} {r' : Rank} (ho : o < w₀.size) (hne : o ≠ r)
    (hd : ((w₀.node o).duties (site o).hist)[k]? = some (i, .transfer h r)) (hq : q < w₀.size)
    (hne' : q ≠ r') (hd' : ((w₀.node q).duties (site q).hist)[k']? = some (i, .transfer h' r')) :
    q = o := by
  obtain ⟨b, hb, hcar, hself, -⟩ := hc.carried hw ho hd
  obtain ⟨b', hb', hcar', hself', -⟩ := hc.carried hw hq hd'
  obtain ⟨rfl, rfl⟩ := Wire.carried_unique hcar hcar'
  obtain rfl : b = b' := Option.some.inj (hb.symm.trans hb')
  exact (hself'.resolve_left hne').trans (hself.resolve_left hne).symm

/-- Ranks stay coherent when one of them goes on with the same history. The values that are new are
those of lines that it has sent. -/
theorem replace (hw : w₀.Common tiles plan) (hc : Coherent w₀ tiles plan net V site)
    (ho : o < w₀.size) (hh : s'.hist = (site o).hist) (hV : ∀ i, V i ≠ none → V' i = V i)
    (hl : s'.node.Ledger (w₀.node o) (site o).hist V' s'.log s'.done s'.todo)
    (hm : s'.mail.Tallies (w₀.node o) (site o).hist V' s'.done)
    (hnew : ∀ i block, V i = none → V' i = some block → ∃ (k : TaskId) (h : HandleId) (t : Rank),
      o ≠ t ∧ ((w₀.node o).duties (site o).hist)[k]? = some (i, .transfer h t) ∧
        Deed.after (w₀.node o).shows (((w₀.node o).deeds V' (site o).hist).take k) h = some block)
    (hshipped : ∀ (k : TaskId) i h t, o ≠ t →
      ((w₀.node o).duties (site o).hist)[k]? = some (i, .transfer h t) → (s'.done k ↔ V' i ≠ none))
    (hreceived : ∀ k i h, Asks w₀ site o k i h → s'.done k → V' i ≠ none)
    (horder : ∀ (h : HandleId) b, tiles[h]? = some b → ∀ t i j, Carried b.owner h t plan i →
      Carried b.owner h t plan j → i < j → V' j ≠ none → V' i ≠ none)
    (hwire : Wire w₀.size tiles plan net' V'
      (fun q => (Function.update site o s' q).node.arrivals) (Asks w₀ site)
      (Begun w₀ (Function.update site o s'))) :
    Coherent w₀ tiles plan net' V' (Function.update site o s') := by
  have hold : ∀ q < w₀.size, ∀ (k : TaskId) j h r,
      ((w₀.node q).duties (site q).hist)[k]? = some (j, .transfer h r) → (site q).done k →
        V' j = V j :=
    fun q hq k j h r hk hkd => hV j (hc.value_of_done hq hk hkd)
  constructor
  case ledger =>
    refine (Function.forall_update_iff site fun q s => q < w₀.size →
      s.node.Ledger (w₀.node q) s.hist V' s.log s.done s.todo).mpr
      ⟨fun _ => hh.symm ▸ hl, fun q _ hq => ?_⟩
    exact (hc.ledger q hq).revise fun k j h hk hkd => hold q hq k j h _ hk hkd
  case tallies =>
    exact (Function.forall_update_iff site fun q s => q < w₀.size →
      s.mail.Tallies (w₀.node q) s.hist V' s.done).mpr
      ⟨fun _ => hh.symm ▸ hm, fun q _ hq => (hc.tallies q hq).revise (hold q hq)⟩
  case follows =>
    intro q hq
    rw [hist_update hh]
    exact hc.follows q hq
  case targets =>
    intro q hq
    rw [hist_update hh]
    exact hc.targets q hq
  case shipped =>
    intro q hq k j h r hne hk
    rw [hist_update hh] at hk
    by_cases hqo : q = o
    · subst hqo
      rw [Function.update_self]
      exact hshipped k j h r hne hk
    · rw [Function.update_of_ne hqo, hc.shipped q hq k j h r hne hk]
      refine ⟨fun hj => hV j hj ▸ hj, fun hj hnone => ?_⟩
      obtain ⟨block, hblock⟩ := Option.ne_none_iff_exists'.mp hj
      obtain ⟨k', h', t', hne', hk', -⟩ := hnew j block hnone hblock
      exact hqo (sender_unique hw hc ho hne' hk' hq hne hk)
  case source =>
    intro j block hj
    by_cases hnone : V j = none
    · obtain ⟨k, h, t, hne, hk, hval⟩ := hnew j block hnone hj
      exact ⟨o, ho, k, h, t, hne, by rw [hist_update hh]; exact ⟨hk, hval⟩⟩
    · rw [hV j hnone] at hj
      obtain ⟨q, hq, k, h, t, hne, hk, hval⟩ := hc.source j block hj
      have hlq := hc.ledger q hq
      have hkd : (site q).done k := (hc.shipped q hq k j h t hne hk).mpr hnone
      have hafter := hlq.after_revise (a := .read) (fun k i h hk hkd => hold q hq k i h _ hk hkd)
        hk (by
          rw [Node.deed_of_ne_target ((hw.rank q hq).symm ▸ hne)]
          exact List.mem_cons_self) fun l hl => hlq.account.orderly.sound.closed l k hl hkd
      exact ⟨q, hq, k, h, t, hne, by rw [hist_update hh]; exact ⟨hk, hafter.trans hval⟩⟩
  case received =>
    intro q hq k j h hk hkd
    rw [asks_update hh] at hk
    by_cases hqo : q = o
    · subst hqo
      rw [Function.update_self] at hkd
      exact hreceived k j h hk hkd
    · rw [Function.update_of_ne hqo] at hkd
      have hj := hc.received q hq k j h hk hkd
      rwa [hV j hj]
  case inOrder => exact horder
  case wire => exact asks_update hh ▸ hwire

end

/-! ## An owner sends -/

/-- When a line has been sent, just the lines that have been sent have a value. -/
theorem shipped_send (hc : Coherent w₀ tiles plan net V site) (ho : o < w₀.size)
    (hd : ((w₀.node o).duties (site o).hist)[t.id]? = some (i, .transfer h r)) (block : List α)
    {h' : HandleId} {r' : Rank} (hne : o ≠ r')
    (hk : ((w₀.node o).duties (site o).hist)[k]? = some (j, .transfer h' r')) :
    (site o).done k ∨ k = t.id ↔ Function.update V i (some block) j ≠ none := by
  by_cases hji : j = i
  · subst hji
    obtain rfl : k = t.id :=
      Node.duty_unique hk hd rfl rfl (by simp [Entry.line?]) (by simp [Entry.line?])
    rw [Function.update_self]
    exact iff_of_true (Or.inr rfl) (Option.some_ne_none _)
  · rw [Function.update_of_ne hji, ← hc.shipped o ho k j h' r' hne hk]
    refine or_iff_left ?_
    rintro rfl
    rw [hd, Option.some.injEq, Prod.mk.injEq] at hk
    exact hji hk.1.symm

/-- The lines for a tile and a rank are sent in their order. -/
theorem inOrder_send (hw : w₀.Common tiles plan) (hc : Coherent w₀ tiles plan net V site)
    (ho : o < w₀.size) (htodo : (site o).todo = t :: todo) (hs : (site o).node.scheduler = some s)
    (hd : ((w₀.node o).duties (site o).hist)[t.id]? = some (i, .transfer h r)) (hne : o ≠ r)
    (block : List α) {h' : HandleId} {b' : Tensor.Blueprint} (hb : tiles[h']? = some b') {r' : Rank}
    {i₁ i₂ : Nat} (h₁ : Carried b'.owner h' r' plan i₁) (h₂ : Carried b'.owner h' r' plan i₂)
    (hlt : i₁ < i₂) (hV : Function.update V i (some block) i₂ ≠ none) :
    Function.update V i (some block) i₁ ≠ none := by
  by_cases hi₁ : i₁ = i
  · rw [hi₁, Function.update_self]
    exact Option.some_ne_none _
  · rw [Function.update_of_ne hi₁]
    by_cases hi₂ : i₂ = i
    · subst hi₂
      obtain ⟨_, _, hcar, -⟩ := hc.carried hw ho hd
      obtain ⟨rfl, rfl⟩ := Wire.carried_unique hcar h₂
      exact hc.sent_before hw ho htodo hs hd hne hb h₁ hlt
    · rw [Function.update_of_ne hi₂] at hV
      exact hc.inOrder h' b' hb r' i₁ i₂ h₁ h₂ hlt hV

/-- The message for a line follows those of the lines before. -/
theorem lt_of_sent (hw : w₀.Common tiles plan) (hc : Coherent w₀ tiles plan net V site)
    (ho : o < w₀.size) (hb : tiles[h]? = some b) (hcar : Carried b.owner h r plan i) (hnone : V i = none)
    (hk : ((w₀.node o).duties (site o).hist)[k]? = some (j, .transfer h r)) (hkd : (site o).done k) :
    j < i := by
  have hj := hc.value_of_done ho hk hkd
  rcases Nat.lt_trichotomy j i with hlt | rfl | hgt
  · exact hlt
  · exact absurd hnone hj
  · obtain ⟨b', hb', hcar', -⟩ := hc.carried hw ho hk
    obtain rfl : b = b' := Option.some.inj (hb.symm.trans hb')
    exact absurd hnone (hc.inOrder h b hb r i j hcar hcar' hgt hj)

/-- An owner sends what a line says. -/
theorem send (hw : w₀.Common tiles plan) (hc : Coherent w₀ tiles plan net V site)
    (ho : o < w₀.size) (htodo : (site o).todo = t :: todo)
    (hs : (site o).node.scheduler = some s)
    (hd : ((w₀.node o).duties (site o).hist)[t.id]? = some (i, .transfer h r)) (hne : o ≠ r)
    (hsome : (site o).node.shows h = some block)
    (hs' : s' = { site o with
      node := (Node.start net (site o).node t).2
      mail.sent := (site o).mail.sent ++ (site o).node.posted net t
      done := fun j => (site o).done j ∨ j = t.id
      todo }) :
    Coherent w₀ tiles plan (Node.start net (site o).node t).1 (Function.update V i (some block))
        (Function.update site o s') ∧ s'.node.scheduler.isSome := by
  have hrank := hw.rank o ho
  have hl := hc.ledger o ho
  rw [htodo] at hl
  obtain ⟨b, hb, hcar, -, -⟩ := hc.carried hw ho hd
  have hnone := hc.value_of_next ho htodo hs hd hne
  obtain ⟨tag, htag, hjob, -⟩ := hl.next_transfer hs hd
  obtain ⟨tag', htag', hstart⟩ := Node.Ledger.start_send_of_some net hl hs hd
    (hrank.symm ▸ hne) hsome
  obtain rfl : tag = tag' := Option.some.inj (htag.symm.trans htag')
  obtain rfl : tag = b.tag := by
    rw [hw.handle ho hb] at htag
    exact (Option.some.inj htag).symm
  obtain ⟨net', hsend, hwire⟩ := wire_send hw hc block ho htodo hs hd hne hb
  obtain ⟨hnet, halive, harr, hl'⟩ := hstart net' (hrank.symm ▸ hsend)
  rw [Node.errand, if_neg (hrank.symm ▸ hne)] at hjob
  have hposted := Node.posted_of_send hjob hsome
    ((hl.marks.rank.trans hrank).symm ▸ hsend)
  have hV : ∀ j, V j ≠ none → Function.update V i (some block) j = V j := by
    intro j hj
    refine Function.update_of_ne ?_ _ _
    rintro rfl
    exact hj hnone
  have hold : ∀ (k : TaskId) j h r, ((w₀.node o).duties (site o).hist)[k]? =
      some (j, .transfer h r) → (site o).done k → Function.update V i (some block) j = V j :=
    fun k j h r hk hkd => hV j (hc.value_of_done ho hk hkd)
  refine ⟨?_, by rw [hs']; exact halive⟩
  rw [hnet]
  have hh : s'.hist = (site o).hist := by rw [hs']
  have harr' : s'.node.arrivals = (site o).node.arrivals := by
    rw [hs']
    exact harr
  refine hc.replace hw ho hh hV ?_ ?_ ?_ ?_ ?_ ?_ ?_
  · rw [hs']
    refine hl'.revise ?_
    rintro k j h' hk (hkd | rfl)
    · exact hold k j h' _ hk hkd
    · rw [hrank] at hk
      exact absurd rfl (ne_of_asks hd hne hk)
  · have hm := (hc.tallies o ho).revise hold
    rw [hs']
    exact hm.send (hrank.symm ▸ hne) hd
      (fun j i' hj hjd => hc.lt_of_sent hw ho hb hcar hnone hj hjd)
      (by rw [hposted, Wire.shipment_update_self])
  · -- the only new value is that of the line
    intro j block' hj hblock
    obtain rfl : j = i := by
      by_contra hji
      rw [Function.update_of_ne hji, hj] at hblock
      cases hblock
    rw [Function.update_self] at hblock
    refine ⟨t.id, h, r, hne, hd, ?_⟩
    have hrev := hl.revise fun k i h hk hkd => hold k i h _ hk hkd
    rw [← hrev.seen_by_next (a := .read) hs hd, hsome, hblock]
    rw [Node.deed_of_ne_target (hrank.symm ▸ hne)]
    exact List.mem_cons_self
  · intro k j h' r' hne' hk
    rw [hs']
    exact hc.shipped_send ho hd block hne' hk
  · intro k j h' hk hkd
    rw [hs'] at hkd
    have hj := hc.received o ho k j h' hk (hkd.resolve_right (ne_of_asks hd hne hk))
    rwa [hV j hj]
  · exact fun h' b' hb' r' i₁ i₂ => hc.inOrder_send hw ho htodo hs hd hne block hb'
  · refine hwire.quiet (fun q _ => ?_) (fun _ _ _ _ _ hk => hk) fun q _ h' j => ?_
    · rw [arrivals_update harr']
      split
      · rename_i hq
        rw [hq]
      · rfl
    · refine begun_congr hh harr' (fun k j h' hk => ?_) q h' j
      rw [hs']
      exact or_iff_left (ne_of_asks hd hne hk)

/-! ## A target begins to receive -/

/-- A receive that is started has not been under way before. -/
theorem not_begun_next (hc : Coherent w₀ tiles plan net V site) (hr : r < w₀.size)
    (htodo : (site r).todo = t :: todo) (hs : (site r).node.scheduler = some s)
    (hd : Asks w₀ site r t.id i h) : ¬Begun w₀ site r h i := by
  have hl := hc.ledger r hr
  rw [htodo] at hl
  obtain ⟨-, hn, hactive, -⟩ := hl.account.orderly.next hs
  rintro ⟨k, hk, hk'⟩
  obtain rfl : k = t.id :=
    Node.duty_unique hk hd rfl rfl (by simp [Entry.line?]) (by simp [Entry.line?])
  rcases hk' with hk' | ⟨a, ha, hid⟩
  · exact hn hk'
  · exact hactive (Or.inr (Or.inl ⟨a, ha, hid⟩))

/-- When a receive is started, it is for the oldest message that may have come. -/
theorem first_next (hw : w₀.Common tiles plan) (hc : Coherent w₀ tiles plan net V site)
    (hr : r < w₀.size) (htodo : (site r).todo = t :: todo)
    (hs : (site r).node.scheduler = some s) (hd : Asks w₀ site r t.id i h)
    (hb : tiles[h]? = some b) (hcar : Carried b.owner h r plan i)
    (hcar' : Carried b.owner h r plan j) (hV : V j ≠ none) (hn : ¬Begun w₀ site r h j) :
    i ≤ j ∧ V i ≠ none := by
  have hl := hc.ledger r hr
  rw [htodo] at hl
  obtain ⟨-, -, -, hfirst⟩ := hl.account.orderly.next hs
  rcases Nat.lt_trichotomy j i with hji | rfl | hij
  · obtain ⟨k, hk, hprec⟩ := hc.received_before hw hr hd hb hcar' hji
    exact absurd ⟨k, hk, Or.inl (hfirst k hprec)⟩ hn
  · exact ⟨Nat.le_refl _, hV⟩
  · exact ⟨Nat.le_of_lt hij, hc.inOrder h b hb r i j hcar hcar' hij hV⟩

/-- A target begins to receive what a line says. -/
theorem receive (hw : w₀.Common tiles plan) (hc : Coherent w₀ tiles plan net V site)
    (hr : r < w₀.size) (htodo : (site r).todo = t :: todo)
    (hs : (site r).node.scheduler = some s) (hd : Asks w₀ site r t.id i h)
    (hs' : s' = { site r with node := (Node.start net (site r).node t).2, todo }) :
    Coherent w₀ tiles plan (Node.start net (site r).node t).1 V (Function.update site r s') ∧
      s'.node.scheduler.isSome := by
  have hrank := hw.rank r hr
  have hl := hc.ledger r hr
  rw [htodo] at hl
  obtain ⟨b, hb, hcar, -, -⟩ := hc.carried hw hr hd
  have hd' : ((w₀.node r).duties (site r).hist)[t.id]? = some (i, .transfer h (w₀.node r).rank) := by
    rw [hrank]
    exact hd
  obtain ⟨tag, htag, hstart, hl'⟩ := Node.Ledger.start_receive net hl hs hd'
  obtain rfl : tag = b.tag := by
    rw [hw.handle hr hb] at htag
    exact (Option.some.inj htag).symm
  rw [hrank, hw.owner hr hb] at hstart
  have hlb : b.owner < w₀.size := hw.owners b (List.mem_of_getElem? hb)
  have hh : s'.hist = (site r).hist := by rw [hs']
  have hdone : ∀ k, s'.done k ↔ (site r).done k := by
    intro k
    rw [hs']
  have harr : s'.node.arrivals =
      (site r).node.arrivals ++ [⟨t.id, t.name, h, net.nextTicket⟩] := by
    rw [hs', hstart, Cluster.receive_snd]
  obtain ⟨net', hrcv, hwire⟩ := hc.wire.receive hw.tags hr hb hlb hcar
    (hc.not_begun_next hr htodo hs hd)
    (fun j hj hV hn => hc.first_next hw hr htodo hs hd hb hcar hj hV hn) hd (arrivals_update harr)
    (begun_append hh hdone harr hd)
  refine ⟨hc.replace hw hr hh (fun _ _ => rfl) ?_ ?_ ?_ ?_ ?_ hc.inOrder ?_, ?_⟩
  · rw [hs']
    exact hl'
  · rw [hs']
    exact hc.tallies r hr
  · intro j block hnone hsome
    rw [hnone] at hsome
    cases hsome
  · exact fun k j h' t' hne hk => (hdone k).trans (hc.shipped r hr k j h' t' hne hk)
  · exact fun k j h' hk hkd => hc.received r hr k j h' hk ((hdone k).mp hkd)
  · rw [hstart, hrcv]
    exact hwire
  · rw [hs', hstart]
    show (site r).node.scheduler.isSome
    rw [hs]
    rfl

/-! ## What has come is stored -/

/-- The copy that a receive replaces is as long as what has come. -/
theorem room_of_arrival (hw : w₀.Common tiles plan) (hc : Coherent w₀ tiles plan net V site)
    (hr : r < w₀.size) {a : Arrival} (ha : a ∈ (site r).node.arrivals)
    (hd : Asks w₀ site r a.id i a.handle) (hV : V i = some block) :
    ∃ old, (site r).node.shows a.handle = some old ∧ old.length = block.length := by
  have hrank := hw.rank r hr
  have hl := hc.ledger r hr
  obtain ⟨b, hb, hcar, -, hi⟩ := hc.carried hw hr hd
  have hlb : b.owner < w₀.size := hw.owners b (List.mem_of_getElem? hb)
  have hremote : (w₀.node r).owner a.handle ≠ (w₀.node r).rank := by
    rw [hw.owner hr hb, hrank]
    exact Ne.symm hcar.2.1
  have hd' : ((w₀.node r).duties (site r).hist)[a.id]? =
      some (i, .transfer a.handle (w₀.node r).rank) := by
    rw [hrank]
    exact hd
  -- the owner has sent a block of the tile's length
  obtain ⟨k, -, -, hval⟩ := hc.source_of_carried hw hb hcar hV
  obtain ⟨old, hold, hlen⟩ := Node.length_of_owner
    ((hw.owner hlb hb).trans (hw.rank _ hlb).symm) hval
  rw [hw.blank hlb hb] at hold
  refine ⟨old, ?_, hlen.symm⟩
  -- the copy is blank, since there was none before the line
  have hblank : (w₀.node r).shows a.handle = ((w₀.node r).handle a.handle).blank := by
    rw [hw.blank hr hb, hw.handle hr hb]
  rw [hl.seen_by_arrival ha hd', hl.copy_before hremote hblank hd', Node.copyOf]
  have hnone : copyLine ((w₀.node r).owner a.handle) a.handle (w₀.node r).rank
      ((lines (site r).hist).take i) = none := by
    rw [hw.owner hr hb, hrank]
    exact ((carried_iff_of_isPrefix (hc.follows r hr)).mpr ⟨hi, hcar⟩).2.2
  dsimp only
  rw [hnone, hw.handle hr hb]
  exact hold

/-- What has come is stored in the copy. -/
theorem arrive (hw : w₀.Common tiles plan) (hc : Coherent w₀ tiles plan net V site)
    (hr : r < w₀.size) {n' : Node α}
    (h : Node.takeArrival net (site r).node j = some (net', n')) :
    ∃ a payload, (site r).node.arrivals[j]? = some a ∧
      net.receipts.find? a.ticket = some (.delivered payload) ∧
      Coherent w₀ tiles plan net' V (Function.update site r { site r with
        node := n'
        mail.taken := (site r).mail.taken ++ [(a.handle, a.id, payload)]
        done := fun k => (site r).done k ∨ k = a.id }) := by
  obtain ⟨a, c, haj, hreceipt, hanswered, rfl, rfl⟩ := Node.takeArrival_eq_some_iff.mp h
  have ha : a ∈ (site r).node.arrivals := List.mem_of_getElem? haj
  have hrank := hw.rank r hr
  have hl := hc.ledger r hr
  have hsound := hl.account.orderly.sound
  have hactive : (site r).node.Active a.id := Or.inr (Or.inl ⟨a, ha, rfl⟩)
  obtain ⟨i, hd, -, hrec⟩ := hc.wire.answered r hr a ha
  obtain rfl : c = receipt V i := Option.some.inj (hreceipt.symm.trans hrec)
  obtain ⟨block, hV⟩ := Option.ne_none_iff_exists'.mp (mt receipt_eq_waiting_iff.mpr hanswered)
  have hdelivered : receipt V i = .delivered (Scalar.encodeBlock block) := by
    unfold receipt
    rw [hV]
  have hship : shipment V i = Scalar.encodeBlock block := by
    unfold shipment
    rw [hV]
    rfl
  obtain ⟨old, hold, hlen⟩ := hc.room_of_arrival hw hr ha hd hV
  have hd' : ((w₀.node r).duties (site r).hist)[a.id]? =
      some (i, .transfer a.handle (w₀.node r).rank) := by
    rw [hrank]
    exact hd
  obtain ⟨hl', harr⟩ := hl.arrive haj hd' hV hold hlen
  rw [hdelivered] at hreceipt ⊢
  refine ⟨a, _, haj, hreceipt, ?_⟩
  generalize hs' : ({ site r with
    node := ({ (site r).node with arrivals := (site r).node.arrivals.eraseIdx j } : Node α).finish a
      (.delivered (Scalar.encodeBlock block))
    mail.taken := (site r).mail.taken ++ [(a.handle, a.id, Scalar.encodeBlock block)]
    done := fun k => (site r).done k ∨ k = a.id } : Site α) = s'
  have hh : s'.hist = (site r).hist := by rw [← hs']
  have hdone : ∀ k, s'.done k ↔ (site r).done k ∨ k = a.id := by
    intro k
    rw [← hs']
  have harr' : s'.node.arrivals = (site r).node.arrivals.eraseIdx j := by
    rw [← hs']
    exact harr
  refine hc.replace hw hr hh (fun _ _ => rfl) ?_ ?_ ?_ ?_ ?_ hc.inOrder ?_
  · rw [← hs']
    exact hl'
  · rw [← hs']
    refine (hc.tallies r hr).take hd' ?_ (by rw [hship])
    intro k i' hk hkd
    rcases Nat.lt_trichotomy k a.id with hlt | rfl | hgt
    · exact Node.line_lt_of_lt hk hd' hlt
    · exact absurd hkd (hsound.undone _ hactive)
    · exact absurd (hsound.closed a.id k (hl.receive_precedes rfl hd' hk hgt) hkd)
        (hsound.undone _ hactive)
  · intro j block hnone hsome
    rw [hnone] at hsome
    cases hsome
  · intro k i' h t hne hk
    rw [hdone, ← hc.shipped r hr k i' h t hne hk]
    exact or_iff_left fun hka => ne_of_asks hk hne hd hka.symm
  · intro k i' h' hk hkd
    rcases (hdone k).mp hkd with hkd | rfl
    · exact hc.received r hr k i' h' hk hkd
    · rw [(hk.unique hd).1, hV]
      exact Option.some_ne_none _
  · have hnot : net.receipts.find? a.ticket ≠ some .waiting := by
      rw [hreceipt]
      simp
    exact (hc.wire.arrive hr haj hnot hsound.arrivals_nodup (arrivals_update harr')).quiet
      (fun _ _ => rfl) (fun _ _ _ _ _ hk => hk) fun q _ => begun_eraseIdx hh hdone haj harr' q

end Coherent

end TiledTensor

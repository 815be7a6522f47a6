import TiledTensor.Proofs.Channels
import TiledTensor.Proofs.Performing

/-!
# Mail

A rank sends, queues and ends the halves of its transfers in the order of its duties, tile by tile.
`Mail.Tallies` says which lines the entries of its mail stand for; the order of the lines is then
the order of the entries.
-/

namespace TiledTensor

/-! ## Numbers in order -/

/-- The list has the numbers with some property, in increasing order. -/
structure Enumerates (L : List Nat) (p : Nat → Prop) : Prop where
  sorted : L.Pairwise (· < ·)
  mem : ∀ i, i ∈ L ↔ p i

namespace Enumerates

variable {L M : List Nat} {p q : Nat → Prop} {m : Nat}

theorem nil (h : ∀ i, ¬p i) : Enumerates [] p :=
  ⟨.nil, fun i => iff_of_false List.not_mem_nil (h i)⟩

theorem congr (he : Enumerates L p) (h : ∀ i, q i ↔ p i) : Enumerates L q :=
  ⟨he.sorted, fun i => (he.mem i).trans (h i).symm⟩

/-- A number above all others is added. -/
theorem concat (he : Enumerates L p) (hlt : ∀ i, p i → i < m) (h : ∀ i, q i ↔ p i ∨ i = m) :
    Enumerates (L ++ [m]) q := by
  constructor
  · rw [List.pairwise_append]
    refine ⟨he.sorted, List.pairwise_singleton _ _, ?_⟩
    intro i hi j hj
    rw [List.mem_singleton.mp hj]
    exact hlt i ((he.mem i).mp hi)
  · intro i
    rw [List.mem_append, List.mem_singleton, he.mem, h]

/-- The least number is taken away. -/
theorem tail (he : Enumerates (m :: L) p) (h : ∀ i, q i ↔ p i ∧ i ≠ m) : Enumerates L q := by
  obtain ⟨hm, hsorted⟩ := List.pairwise_cons.mp he.sorted
  refine ⟨hsorted, ?_⟩
  intro i
  rw [h, ← he.mem, List.mem_cons]
  constructor
  · intro hi
    exact ⟨Or.inr hi, Nat.ne_of_gt (hm i hi)⟩
  · rintro ⟨hi | hi, hne⟩
    · exact absurd hi hne
    · exact hi

/-- The least number comes first. -/
theorem eq_cons (he : Enumerates L p) (hm : p m) (hle : ∀ i, p i → m ≤ i) : ∃ L', L = m :: L' := by
  cases L with
  | nil => exact absurd ((he.mem m).mpr hm) List.not_mem_nil
  | cons i L =>
    obtain ⟨hi, -⟩ := List.pairwise_cons.mp he.sorted
    have hmi : m ≤ i := hle i ((he.mem i).mp List.mem_cons_self)
    rcases List.mem_cons.mp ((he.mem m).mpr hm) with rfl | h
    · exact ⟨L, rfl⟩
    · exact absurd (hi m h) (Nat.not_lt_of_le hmi)

/-- Numbers that come before all others with a weaker property. -/
theorem isPrefix (he : Enumerates L p) (hf : Enumerates M q) (h : ∀ i, p i → q i)
    (hclosed : ∀ i j, q i → p j → i < j → p i) : L <+: M := by
  induction L generalizing M p q with
  | nil => exact List.nil_prefix
  | cons m L ih =>
    have hm : p m := (he.mem m).mp List.mem_cons_self
    have hleast : ∀ i, p i → m ≤ i := by
      intro i hi
      rcases List.mem_cons.mp ((he.mem i).mpr hi) with rfl | hi
      · exact Nat.le_refl i
      · exact Nat.le_of_lt ((List.pairwise_cons.mp he.sorted).1 i hi)
    obtain ⟨M, rfl⟩ := hf.eq_cons (h m hm) fun i hi => by
      rcases Nat.lt_or_ge i m with him | hmi
      · exact hleast i (hclosed i m hi hm him)
      · exact hmi
    refine List.cons_prefix_cons.mpr ⟨rfl, ?_⟩
    refine ih (he.tail fun _ => Iff.rfl) (hf.tail fun _ => Iff.rfl) ?_ ?_
    · rintro i ⟨hi, hne⟩
      exact ⟨h i hi, hne⟩
    · rintro i j ⟨hi, hne⟩ ⟨hj, -⟩ hij
      exact ⟨hclosed i j hi hj hij, hne⟩

end Enumerates

/-- Two lists that stand for the same numbers entry by entry are equal, if each entry is determined
by its number. -/
theorem eq_of_forall₂ {β : Type} {R : Nat → β → Prop} (huniq : ∀ i b c, R i b → R i c → b = c)
    {L : List Nat} {bs cs : List β} (hb : List.Forall₂ R L bs) (hc : List.Forall₂ R L cs) :
    bs = cs := by
  induction hb generalizing cs with
  | nil =>
    cases hc
    rfl
  | cons h _ ih =>
    cases hc with
    | cons h' hc' => rw [huniq _ _ _ h h', ih hc']

/-! ## What the entries stand for -/

section

variable {α : Type} {n₀ : Node α} {hist : List (Entry α)} {done : TaskId → Prop} {L : List Nat}
  {h h' : HandleId} {r r' : Rank} {i : Nat} {k : TaskId}

/-- One more half of the transfers of a tile to a rank is done, after all that are. -/
theorem Enumerates.finish_self (he : Enumerates L fun i => ∃ j : TaskId,
      (n₀.duties hist)[j]? = some (i, .transfer h r) ∧ done j)
    (hd : (n₀.duties hist)[k]? = some (i, .transfer h r))
    (hlater : ∀ (j : TaskId) i', (n₀.duties hist)[j]? = some (i', .transfer h r) → done j →
      i' < i) :
    Enumerates (L ++ [i]) fun i => ∃ j : TaskId,
      (n₀.duties hist)[j]? = some (i, .transfer h r) ∧ (done j ∨ j = k) := by
  refine he.concat ?_ ?_
  · rintro i' ⟨j, hj, hdone⟩
    exact hlater j i' hj hdone
  · intro i'
    constructor
    · rintro ⟨j, hj, hdone | rfl⟩
      · exact Or.inl ⟨j, hj, hdone⟩
      · rw [hd, Option.some.injEq, Prod.mk.injEq] at hj
        exact Or.inr hj.1.symm
    · rintro (⟨j, hj, hdone⟩ | rfl)
      · exact ⟨j, hj, Or.inl hdone⟩
      · exact ⟨k, hd, Or.inr rfl⟩

theorem Enumerates.finish_other (he : Enumerates L fun i => ∃ j : TaskId,
      (n₀.duties hist)[j]? = some (i, .transfer h' r') ∧ done j)
    (hd : (n₀.duties hist)[k]? = some (i, .transfer h r)) (hne : ¬(h' = h ∧ r' = r)) :
    Enumerates L fun i => ∃ j : TaskId,
      (n₀.duties hist)[j]? = some (i, .transfer h' r') ∧ (done j ∨ j = k) := by
  refine he.congr fun i' => exists_congr fun j => and_congr_right fun hj => or_iff_left ?_
  rintro rfl
  rw [hd, Option.some.injEq, Prod.mk.injEq] at hj
  obtain ⟨rfl, rfl⟩ := Entry.transfer.inj hj.2
  exact hne ⟨rfl, rfl⟩

end

variable {α : Type} [Scalar α]

/-- The message for a line. -/
def shipment (V : Nat → Option (List α)) (i : Nat) : Payload := Scalar.encodeBlock ((V i).getD [])

theorem shipment_eq {V V' : Nat → Option (List α)} {i : Nat} (hV : V' i = V i) :
    shipment V' i = shipment V i := by
  unfold shipment
  rw [hV]

/-- The mail of a rank follows its duties: what it has sent to another rank are the messages for
the sends that are done, and so on. -/
structure Mail.Tallies (m : Mail) (n₀ : Node α) (hist : List (Entry α)) (V : Nat → Option (List α))
    (done : TaskId → Prop) : Prop where
  sent : ∀ h r, n₀.rank ≠ r → ∃ L,
    Enumerates L (fun i => ∃ k : TaskId, (n₀.duties hist)[k]? = some (i, .transfer h r) ∧ done k) ∧
      along (h, r) m.sent = L.map (shipment V)
  asked : ∀ h, ∃ L,
    Enumerates L (fun i => ∃ k : TaskId, (n₀.duties hist)[k]? = some (i, .transfer h n₀.rank)) ∧
      List.Forall₂ (fun i (k : TaskId) => (n₀.duties hist)[k]? = some (i, .transfer h n₀.rank)) L
        (along h m.asked)
  taken : ∀ h, ∃ L,
    Enumerates L (fun i => ∃ k : TaskId, (n₀.duties hist)[k]? = some (i, .transfer h n₀.rank) ∧
      done k) ∧
      List.Forall₂ (fun i (e : TaskId × Payload) =>
        (n₀.duties hist)[e.1]? = some (i, .transfer h n₀.rank) ∧ e.2 = shipment V i) L
        (along h m.taken)

namespace Mail.Tallies

open Node

variable {n n' n₀ : Node α} {m m' : Mail} {hist hist' : List (Entry α)}
  {V V' : Nat → Option (List α)} {done done' : TaskId → Prop}

/-- A rank of which nothing has been asked has no mail. -/
theorem nil (n₀ : Node α) (V : Nat → Option (List α)) :
    Mail.Tallies {} n₀ [] V (fun _ => False) := by
  refine ⟨?_, ?_, ?_⟩
  · intro h r _
    exact ⟨[], .nil fun _ ⟨_, _, hf⟩ => hf, rfl⟩
  · intro h
    exact ⟨[], .nil fun _ ⟨_, hk⟩ => Option.some_ne_none _ hk.symm, .nil⟩
  · intro h
    exact ⟨[], .nil fun _ ⟨_, _, hf⟩ => hf, .nil⟩

/-- Nothing is sent or received. -/
theorem quiet (ht : m.Tallies n₀ hist V done) (hq : n₀.Quiet n n' hist hist' V done done')
    (hsent : m'.sent = m.sent) (htaken : m'.taken = m.taken)
    (hasked : (m'.asked = m.asked ∧ ∀ (k : TaskId) i h,
        (n₀.duties hist')[k]? = some (i, .transfer h n₀.rank) →
          (n₀.duties hist)[k]? = some (i, .transfer h n₀.rank)) ∨
      ∃ h, m'.asked = m.asked ++ [(h, (n₀.duties hist).length)] ∧ n₀.duties hist' =
        n₀.duties hist ++ [((lines hist).length, .transfer h n₀.rank)]) :
    m'.Tallies n₀ hist' V done' := by
  -- no new half of a transfer is done
  have hdone : ∀ h r i, (∃ k : TaskId, (n₀.duties hist')[k]? = some (i, .transfer h r) ∧ done' k) ↔
      ∃ k : TaskId, (n₀.duties hist)[k]? = some (i, .transfer h r) ∧ done k := by
    intro h r i
    constructor
    · rintro ⟨k, hk, hd⟩
      rcases hq.fresh k i h r hk with hk | ⟨-, hn⟩
      · exact ⟨k, hk, (hq.done_iff k i h r hk).mp hd⟩
      · exact absurd hd hn
    · rintro ⟨k, hk, hd⟩
      exact ⟨k, hq.kept k i h r hk, (hq.done_iff k i h r hk).mpr hd⟩
  refine ⟨?_, ?_, ?_⟩
  · intro h r hr
    obtain ⟨L, he, hL⟩ := ht.sent h r hr
    exact ⟨L, he.congr (hdone h r), hsent ▸ hL⟩
  · intro h
    obtain ⟨L, he, hL⟩ := ht.asked h
    have hkeep : List.Forall₂ (fun i (k : TaskId) =>
        (n₀.duties hist')[k]? = some (i, .transfer h n₀.rank)) L (along h m.asked) :=
      hL.imp fun i k hk => hq.kept k i h _ hk
    rcases hasked with ⟨hsame, hold⟩ | ⟨h', happ, hduties⟩
    · refine ⟨L, he.congr fun i => ?_, hsame ▸ hkeep⟩
      exact ⟨fun ⟨k, hk⟩ => ⟨k, hold k i h hk⟩, fun ⟨k, hk⟩ => ⟨k, hq.kept k i h _ hk⟩⟩
    · have hlast : (n₀.duties hist')[(n₀.duties hist).length]? =
          some ((lines hist).length, .transfer h' n₀.rank) := by
        rw [hduties, List.getElem?_concat_length]
      have hcases : ∀ (k : TaskId) i j,
          (n₀.duties hist')[k]? = some (i, .transfer j n₀.rank) →
            (n₀.duties hist)[k]? = some (i, .transfer j n₀.rank) ∨
              (i = (lines hist).length ∧ j = h') := by
        intro k i j hk
        rw [hduties] at hk
        rcases getElem?_append_singleton_eq_some hk with hk | ⟨-, hnew⟩
        · exact Or.inl hk
        · obtain ⟨rfl, hentry⟩ := Prod.mk.inj hnew
          exact Or.inr ⟨rfl, (Entry.transfer.inj hentry).1.symm⟩
      rw [happ]
      by_cases hh : h' = h
      · subst hh
        rw [along_append_singleton_self]
        refine ⟨L ++ [(lines hist).length], he.concat ?_ ?_, ?_⟩
        · rintro i ⟨k, hk⟩
          exact (carried_of_duty hk).1.lt
        · intro i
          constructor
          · rintro ⟨k, hk⟩
            exact (hcases k i h' hk).imp (fun hk => ⟨k, hk⟩) And.left
          · rintro (⟨k, hk⟩ | rfl)
            · exact ⟨k, hq.kept k i h' _ hk⟩
            · exact ⟨_, hlast⟩
        · exact List.rel_append hkeep (.cons hlast .nil)
      · rw [along_append_singleton_of_ne hh]
        refine ⟨L, he.congr fun i => ?_, hkeep⟩
        constructor
        · rintro ⟨k, hk⟩
          exact (hcases k i h hk).elim (fun hk => ⟨k, hk⟩) fun hc => absurd hc.2.symm hh
        · rintro ⟨k, hk⟩
          exact ⟨k, hq.kept k i h _ hk⟩
  · intro h
    obtain ⟨L, he, hL⟩ := ht.taken h
    refine ⟨L, he.congr (hdone h _), htaken ▸ ?_⟩
    exact hL.imp fun i e hk => ⟨hq.kept e.1 i h _ hk.1, hk.2⟩

/-- Something is received somewhere else. -/
theorem revise (ht : m.Tallies n₀ hist V done)
    (hV : ∀ (k : TaskId) i h r, (n₀.duties hist)[k]? = some (i, .transfer h r) → done k → V' i = V i) :
    m.Tallies n₀ hist V' done := by
  refine ⟨?_, ht.asked, ?_⟩
  · intro h r hr
    obtain ⟨L, he, hL⟩ := ht.sent h r hr
    refine ⟨L, he, hL.trans (List.map_congr_left ?_)⟩
    intro i hi
    obtain ⟨k, hk, hd⟩ := (he.mem i).mp hi
    exact (shipment_eq (hV k i h r hk hd)).symm
  · intro h
    obtain ⟨L, he, hL⟩ := ht.taken h
    have hsame : ∀ i ∈ L, V' i = V i := by
      intro i hi
      obtain ⟨k, hk, hd⟩ := (he.mem i).mp hi
      exact hV k i h _ hk hd
    refine ⟨L, he, ((List.forall₂_and_left L _).mpr ⟨hsame, hL⟩).imp ?_⟩
    rintro i e ⟨hi, hk, hp⟩
    exact ⟨hk, hp.trans (shipment_eq hi).symm⟩

/-- A message is sent. -/
theorem send (ht : m.Tallies n₀ hist V done) {k : TaskId} {i : Nat} {h : HandleId} {r : Rank}
    (hr : n₀.rank ≠ r) (hd : (n₀.duties hist)[k]? = some (i, .transfer h r))
    (hlater : ∀ (j : TaskId) i', (n₀.duties hist)[j]? = some (i', .transfer h r) → done j → i' < i)
    (hm : m' = { m with sent := m.sent ++ [((h, r), shipment V i)] }) :
    m'.Tallies n₀ hist V (fun j => done j ∨ j = k) := by
  subst hm
  refine ⟨?_, ht.asked, ?_⟩
  · intro h' r' hr'
    obtain ⟨L, he, hL⟩ := ht.sent h' r' hr'
    by_cases hsame : h' = h ∧ r' = r
    · obtain ⟨rfl, rfl⟩ := hsame
      refine ⟨L ++ [i], he.finish_self hd hlater, ?_⟩
      rw [along_append_singleton_self, hL, List.map_append, List.map_singleton]
    · refine ⟨L, he.finish_other hd hsame, ?_⟩
      rw [along_append_singleton_of_ne, hL]
      intro heq
      obtain ⟨rfl, rfl⟩ := Prod.mk.inj heq
      exact hsame ⟨rfl, rfl⟩
  · intro h'
    obtain ⟨L, he, hL⟩ := ht.taken h'
    exact ⟨L, he.finish_other hd fun hc => hr hc.2, hL⟩

/-- A receive ends. -/
theorem take (ht : m.Tallies n₀ hist V done) {k : TaskId} {i : Nat} {h : HandleId}
    (hd : (n₀.duties hist)[k]? = some (i, .transfer h n₀.rank))
    (hlater : ∀ (j : TaskId) i', (n₀.duties hist)[j]? = some (i', .transfer h n₀.rank) → done j →
      i' < i)
    (hm : m' = { m with taken := m.taken ++ [(h, k, shipment V i)] }) :
    m'.Tallies n₀ hist V (fun j => done j ∨ j = k) := by
  subst hm
  refine ⟨?_, ht.asked, ?_⟩
  · intro h' r' hr'
    obtain ⟨L, he, hL⟩ := ht.sent h' r' hr'
    exact ⟨L, he.finish_other hd fun hc => hr' hc.2.symm, hL⟩
  · intro h'
    obtain ⟨L, he, hL⟩ := ht.taken h'
    by_cases hsame : h' = h
    · subst hsame
      refine ⟨L ++ [i], he.finish_self hd hlater, ?_⟩
      rw [along_append_singleton_self]
      exact List.rel_append hL (.cons ⟨hd, rfl⟩ .nil)
    · refine ⟨L, he.finish_other hd fun hc => hsame hc.1, ?_⟩
      rw [along_append_singleton_of_ne (Ne.symm hsame)]
      exact hL

end Mail.Tallies

namespace Node

/-- What is posted is what is sent. -/
theorem posted_of_send {n : Node α} {net net' : Cluster} {t : Task α} {h : HandleId} {r : Rank}
    {tag : Tag} {block : List α} (hjob : t.job = .send h r tag) (hsome : n.shows h = some block)
    (hsend : net.send n.rank r tag (Scalar.encodeBlock block) = .ok net') :
    n.posted net t = [((h, r), Scalar.encodeBlock block)] := by
  have hread := openHandle_snd_toOption n h
  unfold posted
  rw [hjob]
  dsimp only
  generalize (n.openHandle h).2 = p at hread
  cases p with
  | error f => exact absurd (hread.trans hsome) (by simp [Except.toOption])
  | ok old =>
    obtain rfl : old = block := Option.some.inj (hread.trans hsome)
    dsimp only
    rw [hsend]

/-- Nothing is posted for a buffer that cannot be opened. -/
theorem posted_of_none {n : Node α} {net : Cluster} {t : Task α} {h : HandleId} {r : Rank}
    {tag : Tag} (hjob : t.job = .send h r tag) (hnone : n.shows h = none) :
    n.posted net t = [] := by
  have hread := openHandle_snd_toOption n h
  unfold posted
  rw [hjob]
  dsimp only
  generalize (n.openHandle h).2 = p at hread
  cases p with
  | error f => rfl
  | ok old => exact absurd (hread.trans hnone) (by simp [Except.toOption])

/-- Only sends are posted. -/
theorem posted_of_job {n : Node α} {net : Cluster} {t : Task α}
    (hjob : ∀ h r tag, t.job ≠ .send h r tag) : n.posted net t = [] := by
  unfold posted
  split
  · rename_i h r tag hj
    exact absurd hj (hjob h r tag)
  · rfl

/-- An action by which nothing is sent or received leaves the mail alone, unless it queues a
receive. -/
theorem Ledger.mail_of_act {n n' n₀ : Node α} {net net' : Cluster} {hist : List (Entry α)}
    {V : Nat → Option (List α)} {log log' : List (Task α)} {done done' : TaskId → Prop} {m : Mail}
    {todo : List (Task α)} {a : Act α} (hl : n.Ledger n₀ hist V log done todo)
    (hl' : n'.Ledger n₀ (a.record n hist) V log' done' todo) (h : n.Acts net a net' n')
    (htake : a ≠ .take) (harrive : ∀ i, a ≠ .arrive i) :
    (a.mail net n m).sent = m.sent ∧ (a.mail net n m).taken = m.taken ∧
      (((a.mail net n m).asked = m.asked ∧ ∀ (k : TaskId) i h,
        (n₀.duties (a.record n hist))[k]? = some (i, .transfer h n₀.rank) →
          (n₀.duties hist)[k]? = some (i, .transfer h n₀.rank)) ∨
      ∃ h, (a.mail net n m).asked = m.asked ++ [(h, (n₀.duties hist).length)] ∧
        n₀.duties (a.record n hist) =
          n₀.duties hist ++ [((lines hist).length, .transfer h n₀.rank)]) := by
  -- an entry that is no transfer to the rank
  have hother : ∀ e : Entry α, (∀ h, e ≠ .transfer h n₀.rank) → ∀ (k : TaskId) i h,
      (n₀.duties (hist ++ [e]))[k]? = some (i, .transfer h n₀.rank) →
        (n₀.duties hist)[k]? = some (i, .transfer h n₀.rank) := by
    intro e he k i h hk
    by_cases hq : n₀.Queues (lines hist) e
    · rw [duties_append_of_queues hq] at hk
      exact (getElem?_append_singleton_eq_some hk).resolve_right fun hk => he h (Prod.mk.inj hk.2).2
    · rwa [duties_append_of_not_queues hq] at hk
  cases h with
  | @submit op n' bounds ok =>
    exact ⟨rfl, rfl, Or.inl ⟨rfl, hother (.task n.nextTask op) (by simp)⟩⟩
  | @flush h n' bound ok => exact ⟨rfl, rfl, Or.inl ⟨rfl, hother (.flush h) (by simp)⟩⟩
  | @acquire h a n' id bound ok =>
    exact ⟨rfl, rfl, Or.inl ⟨rfl, hother (.guard n.nextTask h a []) (by simp)⟩⟩
  | release found => exact ⟨rfl, rfl, Or.inl ⟨rfl, fun _ _ _ hk => hk⟩⟩
  | look held => exact ⟨rfl, rfl, Or.inl ⟨rfl, fun _ _ _ hk => hk⟩⟩
  | work ok => exact ⟨rfl, rfl, Or.inl ⟨rfl, fun _ _ _ hk => hk⟩⟩
  | take ok => exact absurd rfl htake
  | @arrive i net' n' ok => exact absurd rfl (harrive i)
  | @put id a block n' held ok =>
    refine ⟨rfl, rfl, Or.inl ⟨rfl, ?_⟩⟩
    intro k i h hk
    rw [Act.record, duties_map_put, List.getElem?_map, Option.map_eq_some_iff] at hk
    obtain ⟨⟨j, e⟩, hd, heq⟩ := hk
    obtain ⟨rfl, heq⟩ := Prod.mk.inj heq
    rcases e.put_cases id block with hc | ⟨b, a, puts, rfl, hc⟩
    · rw [hd, ← heq, hc]
    · rw [hc] at heq
      cases heq
  | @transfer h target n' bound ok =>
    have hnext : n.nextTask = (n₀.duties hist).length :=
      hl.account.orderly.sound.next.trans hl.length_eq.symm
    have hnext' : n'.nextTask = (n₀.duties (hist ++ [.transfer h target])).length :=
      hl'.account.orderly.sound.next.trans hl'.length_eq.symm
    have hmail : (Act.mail net n m (.call (.transfer h target))) =
        if n.rank = target ∧ n'.nextTask ≠ n.nextTask then
          { m with asked := m.asked ++ [(h, n.nextTask)] } else m := by
      rw [Act.mail, ok]
    rw [hmail, hl.marks.rank, hnext]
    by_cases hc : n₀.rank = target ∧ n'.nextTask ≠ (n₀.duties hist).length
    · obtain ⟨rfl, hne⟩ := hc
      rw [if_pos ⟨rfl, hne⟩]
      refine ⟨rfl, rfl, Or.inr ⟨h, rfl, ?_⟩⟩
      refine duties_append_of_queues (Decidable.byContradiction fun hq => hne ?_)
      rw [hnext', duties_append_of_not_queues hq]
    · rw [if_neg hc]
      refine ⟨rfl, rfl, Or.inl ⟨rfl, ?_⟩⟩
      by_cases hr : n₀.rank = target
      · subst hr
        intro k i j hk
        have hq : ¬n₀.Queues (lines hist) (.transfer h n₀.rank : Entry α) := by
          intro hq
          refine hc ⟨rfl, ?_⟩
          rw [hnext', duties_append_of_queues hq, List.length_append]
          exact Nat.succ_ne_self _
        rwa [Act.record, duties_append_of_not_queues hq] at hk
      · refine hother (.transfer h target) ?_
        intro j hj
        exact hr (Entry.transfer.inj hj).2.symm

/-- Only ranks that exist are transferred to. -/
theorem Ledger.targets_of_act {n n' n₀ : Node α} {net net' : Cluster} {hist : List (Entry α)}
    {V : Nat → Option (List α)} {log todo : List (Task α)} {done : TaskId → Prop} {a : Act α}
    (hl : n.Ledger n₀ hist V log done todo) (h : n.Acts net a net' n')
    (hb : ∀ h r, .transfer h r ∈ lines hist → r < n₀.size) :
    ∀ h r, .transfer h r ∈ lines (a.record n hist) → r < n₀.size := by
  intro j r hr
  cases h with
  | @submit op n' bounds ok =>
    rw [Act.record, lines_append_singleton] at hr
    exact hb j r ((List.append_nil (lines hist)) ▸ hr)
  | @flush h n' bound ok =>
    rw [Act.record, lines_append_singleton, List.mem_append] at hr
    refine hr.elim (hb j r) fun hr => ?_
    simp [Entry.line?] at hr
  | @acquire h a n' id bound ok =>
    rw [Act.record, lines_append_singleton] at hr
    exact hb j r ((List.append_nil (lines hist)) ▸ hr)
  | @put id a block n' held ok =>
    rw [Act.record, lines_map_put] at hr
    exact hb j r hr
  | @transfer h target n' bound ok =>
    rw [Act.record, lines_append_singleton, List.mem_append] at hr
    refine hr.elim (hb j r) fun hr => ?_
    obtain ⟨rfl, rfl⟩ : j = h ∧ r = target := by simpa [Entry.line?] using hr
    rw [← hl.marks.size]
    exact (transfer_eq_ok hl.marks (hl.marks.length ▸ bound) ok).1
  | release found => exact hb j r hr
  | look held => exact hb j r hr
  | work ok => exact hb j r hr
  | take ok => exact hb j r hr
  | arrive ok => exact hb j r hr

end Node

end TiledTensor

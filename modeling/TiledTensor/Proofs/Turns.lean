import TiledTensor.Proofs.Extent
import TiledTensor.Proofs.Performing

/-!
# The order of transfers

Two receives of a tile conflict, and so they are done in the order of their lines.  Two sends of a
tile do not, but the second is never started before the first.  So each end of a channel keeps to
the order of the lines, whatever else the two ranks do.
-/

namespace TiledTensor

namespace Node

variable {α : Type} [Scalar α] {n n₀ : Node α} {hist : List (Entry α)}
  {V V' : Nat → Option (List α)} {log : List (Task α)} {done : TaskId → Prop}
  {todo : List (Task α)} {t : Task α} {j k : TaskId} {h : HandleId} {r r' : Rank} {i i' : Nat}
  {s : Scheduler α}

namespace Ledger

/-! ## Receives -/

/-- A task waits for an earlier one if one of the two writes a buffer of the other. -/
theorem precedes_of_uses (hl : n.Ledger n₀ hist V log done todo) {d e : Nat × Entry α}
    (hj : (n₀.duties hist)[j]? = some d) (hk : (n₀.duties hist)[k]? = some e) (hlt : j < k)
    {a b : Access} (ha : (h, a) ∈ (n₀.deed V d).uses) (hb : (h, b) ∈ (n₀.deed V e).uses)
    (hw : a.writes = true ∨ b.writes = true) : Precedes log j k := by
  have hf := hl.account.faithful
  have hs := hl.account.orderly.sound
  obtain ⟨t, ht, hte⟩ := getElem?_of_uses hf.uses (getElem?_deeds hj)
  obtain ⟨u, hu, hue⟩ := getElem?_of_uses hf.uses (getElem?_deeds hk)
  refine ⟨t, u, ht, hu, hlt, ?_⟩
  rw [hte, hue]
  exact ⟨h, a, b, ha, hb, hf.ne_scratch hs j _ (getElem?_deeds hj) _ ha,
    hf.ne_scratch hs k _ (getElem?_deeds hk) _ hb, hw⟩

/-- A receive of a tile waits for the receives of it for earlier lines. -/
theorem receive_precedes (hl : n.Ledger n₀ hist V log done todo) (hr : n₀.rank = r)
    (hj : (n₀.duties hist)[j]? = some (i, .transfer h r))
    (hk : (n₀.duties hist)[k]? = some (i', .transfer h r)) (hlt : j < k) :
    Precedes log j k := by
  have hmem : ∀ {i}, (h, Access.write) ∈ (n₀.deed V (i, .transfer h r)).uses := by
    intro i
    rw [deed_of_target hr]
    exact List.mem_cons_self
  exact hl.precedes_of_uses hj hk hlt hmem hmem (Or.inl rfl)

/-- The receive that an arrival is for. -/
theorem duty_of_arrival (hl : n.Ledger n₀ hist V log done todo) {a : Arrival}
    (ha : a ∈ n.arrivals) :
    ∃ i, (n₀.duties hist)[a.id]? = some (i, .transfer a.handle n₀.rank) := by
  obtain ⟨t, src, tag, ht, hjob⟩ := hl.account.orderly.sound.arrivals a ha
  obtain ⟨⟨i, e⟩, hd, hdesc⟩ := hl.exists_duty ht
  cases e with
  | task id op => exact absurd (hjob.symm.trans hdesc.2) (by simp)
  | guard id h a puts => exact absurd (hjob.symm.trans hdesc.2.1) (by simp)
  | flush h => exact absurd (hjob.symm.trans hdesc) (by simp)
  | transfer h r =>
    obtain ⟨tag', -, hj⟩ := hdesc
    by_cases hr : n₀.rank = r
    · rw [errand, if_pos hr, hjob] at hj
      obtain ⟨hh, -⟩ := Job.receive.inj hj
      exact ⟨i, hh ▸ hr ▸ hd⟩
    · rw [errand, if_neg hr, hjob] at hj
      cases hj

/-- At most one receive of a tile is on its way. -/
theorem arrival_unique (hl : n.Ledger n₀ hist V log done todo) {a a' : Arrival}
    (ha : a ∈ n.arrivals) (ha' : a' ∈ n.arrivals) (hh : a.handle = a'.handle) : a = a' := by
  have hs := hl.account.orderly.sound
  obtain ⟨i, hd⟩ := hl.duty_of_arrival ha
  obtain ⟨i', hd'⟩ := hl.duty_of_arrival ha'
  have hactive : n.Active a.id := Or.inr (Or.inl ⟨a, ha, rfl⟩)
  have hactive' : n.Active a'.id := Or.inr (Or.inl ⟨a', ha', rfl⟩)
  rcases Nat.lt_trichotomy a.id a'.id with hlt | heq | hlt
  · exact absurd (hs.first _ _ (hl.receive_precedes rfl (hh ▸ hd) hd' hlt) hactive')
      (hs.undone _ hactive)
  · exact List.inj_on_of_nodup_map hs.arrivals_nodup ha ha' heq
  · exact absurd (hs.first _ _ (hl.receive_precedes rfl hd' (hh ▸ hd) hlt) hactive)
      (hs.undone _ hactive')

/-! ## Sends -/

/-- Sends of a tile are started in the order of their lines. -/
theorem done_of_earlier_send (hl : n.Ledger n₀ hist V log done (t :: todo))
    (hs : n.scheduler = some s) (hd : (n₀.duties hist)[t.id]? = some (i, .transfer h r))
    (hr : n₀.rank ≠ r) (hj : (n₀.duties hist)[j]? = some (i', .transfer h r'))
    (hr' : n₀.rank ≠ r') (hlt : j < t.id) : done j := by
  have huses := hl.account.faithful.uses
  obtain ⟨v, hv, hve⟩ := getElem?_of_uses huses (getElem?_deeds (V := V) hd)
  obtain ⟨u, hu, hue⟩ := getElem?_of_uses huses (getElem?_deeds (V := V) hj)
  rw [deed_of_ne_target hr] at hve
  rw [deed_of_ne_target hr'] at hue
  obtain ⟨tag, -, hjob⟩ := hl.job_of_transfer hj hu
  rw [errand, if_neg hr'] at hjob
  exact hl.account.orderly.done_of_earlier_send hs hu hv hlt (hue.trans hve.symm) hjob

/-- A half of a transfer begins and ends at once with its effect. -/
theorem done_of_applied (hl : n.Ledger n₀ hist V log done todo)
    (hd : (n₀.duties hist)[k]? = some (i, .transfer h r)) (ha : n.Applied done k) : done k := by
  rcases ha with hk | ⟨a, hacc, -⟩
  · exact hk
  · obtain ⟨j, puts, hd'⟩ := hl.duty_of_accessor hacc
    rw [hd, Option.some.injEq, Prod.mk.injEq] at hd'
    cases hd'.2

/-- At its turn the owner shows what the deeds before leave. -/
theorem seen_by_next (hl : n.Ledger n₀ hist V log done (t :: todo)) (hs : n.scheduler = some s)
    {d : Nat × Entry α} (hd : (n₀.duties hist)[t.id]? = some d) {a : Access}
    (hu : (h, a) ∈ (n₀.deed V d).uses) :
    n.shows h = Deed.after n₀.shows ((n₀.deeds V hist).take t.id) h := by
  obtain ⟨-, -, -, hfirst⟩ := hl.account.orderly.next hs
  exact hl.account.faithful.seen hl.account.orderly.sound (getElem?_deeds hd)
    (hl.account.not_applied_next hs) hfirst hu

/-- A receive on its way finds what the deeds before leave. -/
theorem seen_by_arrival (hl : n.Ledger n₀ hist V log done todo) {a : Arrival} (ha : a ∈ n.arrivals)
    (hd : (n₀.duties hist)[a.id]? = some (i, .transfer a.handle n₀.rank)) :
    n.shows a.handle = Deed.after n₀.shows ((n₀.deeds V hist).take a.id) a.handle := by
  have hs := hl.account.orderly.sound
  have hactive : n.Active a.id := Or.inr (Or.inl ⟨a, ha, rfl⟩)
  refine hl.account.faithful.seen (a := .write) hs (getElem?_deeds hd) ?_
    (fun j hj => hs.first j _ hj hactive) ?_
  · intro happ
    exact hs.undone _ hactive (hl.done_of_applied hd happ)
  · rw [deed_of_target rfl]
    exact List.mem_cons_self

/-! ## Values that come later -/

/-- The uses of deeds do not depend on what is received. -/
theorem map_uses_deeds (n₀ : Node α) (V V' : Nat → Option (List α)) (hist : List (Entry α)) :
    (n₀.deeds V' hist).map (·.uses) = (n₀.deeds V hist).map (·.uses) := by
  unfold deeds
  rw [List.map_map, List.map_map]
  refine List.map_congr_left ?_
  rintro ⟨i, e⟩ -
  cases e with
  | task id op => rfl
  | guard id h a puts => rfl
  | flush h => rfl
  | transfer h r =>
    show (n₀.deed V' (i, .transfer h r)).uses = (n₀.deed V (i, .transfer h r)).uses
    by_cases hr : n₀.rank = r
    · rw [deed_of_target hr, deed_of_target hr]
      rfl
    · rw [deed_of_ne_target hr, deed_of_ne_target hr]

/-- Only receives depend on what is received. -/
theorem deed_eq {d : Nat × Entry α} (hV : ∀ h, d.2 = .transfer h n₀.rank → V' d.1 = V d.1) :
    n₀.deed V' d = n₀.deed V d := by
  obtain ⟨i, e⟩ := d
  cases e with
  | task id op => rfl
  | guard id h a puts => rfl
  | flush h => rfl
  | transfer h r =>
    by_cases hr : n₀.rank = r
    · subst hr
      rw [deed_of_target rfl, deed_of_target rfl, hV h rfl]
    · rw [deed_of_ne_target hr, deed_of_ne_target hr]

/-- What is received for a line that has not been applied is not known yet. -/
theorem revise (hl : n.Ledger n₀ hist V log done todo)
    (hV : ∀ (k : TaskId) i h, (n₀.duties hist)[k]? = some (i, .transfer h n₀.rank) →
      done k → V' i = V i) : n.Ledger n₀ hist V' log done todo := by
  have hs := hl.account.orderly.sound
  refine ⟨⟨hl.account.orderly, hl.account.faithful.revise hs (map_uses_deeds n₀ V V' hist) ?_, ?_⟩,
    hl.describes, hl.marks, hl.allowed⟩
  · intro j hj
    unfold deeds
    rw [List.getElem?_map, List.getElem?_map]
    cases hd : (n₀.duties hist)[j]? with
    | none => rfl
    | some d =>
      rw [Option.map_some, Option.map_some, deed_eq]
      intro h he
      have hdj : (n₀.duties hist)[j]? = some (d.1, .transfer h n₀.rank) := by rw [hd, ← he]
      exact hV j d.1 h hdj (hl.done_of_applied hdj hj)
  · intro j u d hu hj hd hn
    obtain ⟨⟨i, e⟩, hduty, hdesc⟩ := hl.exists_duty hu
    have heq : n₀.deed V' (i, e) = n₀.deed V (i, e) := by
      refine deed_eq ?_
      rintro h rfl
      obtain ⟨tag, -, hjob⟩ := hdesc
      rw [errand, if_pos rfl, hj] at hjob
      cases hjob
    rw [getElem?_deeds hduty, heq] at hd
    exact hl.account.idle j u d hu hj (by rw [getElem?_deeds hduty, hd]) hn

/-- What a task finds at its turn depends only on the receives that are done. -/
theorem after_revise (hl : n.Ledger n₀ hist V log done todo)
    (hV : ∀ (k : TaskId) i h, (n₀.duties hist)[k]? = some (i, .transfer h n₀.rank) → done k →
      V' i = V i) {d : Nat × Entry α} (hd : (n₀.duties hist)[k]? = some d) {a : Access}
    (hu : (h, a) ∈ (n₀.deed V d).uses) (hfirst : ∀ j, Precedes log j k → done j) :
    Deed.after n₀.shows ((n₀.deeds V' hist).take k) h =
      Deed.after n₀.shows ((n₀.deeds V hist).take k) h := by
  refine hl.account.faithful.stable hl.account.orderly.sound (map_uses_deeds n₀ V V' hist) ?_
    (getElem?_deeds hd) hfirst hu
  intro j hj
  unfold deeds
  rw [List.getElem?_map, List.getElem?_map]
  cases hdj : (n₀.duties hist)[j]? with
  | none => rfl
  | some e =>
    rw [Option.map_some, Option.map_some, deed_eq]
    intro h' he
    refine hV j e.1 h' ?_ hj
    rw [hdj, ← he]

end Ledger

end Node

end TiledTensor

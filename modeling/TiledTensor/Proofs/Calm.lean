import TiledTensor.Proofs.Doubles
import TiledTensor.Proofs.Retirement
import TiledTensor.Proofs.Together

/-!
# Nothing is left under the tags of a tensor

When the task comes to its turn that retires the tags of a tensor, every receive on the buffers of
the tensor is over.  All ranks give the tensor up at the same point of the program, so no message
for one of its tiles can be on its way then, or come later.  The task finds nothing to retire.
-/

namespace TiledTensor

variable {α : Type}

/-! ## Clear mailboxes -/

namespace Cluster

/-- The mailbox of a rank holds no message and no receive under some tags. -/
def Clear (c : Cluster) (r : Rank) (range : TagRange) : Prop :=
  ∀ ch : Channel, range.contains ch.tag = true → c.messages r ch = [] ∧ c.waiters r ch = []

variable {c c' : Cluster} {src dst rank r : Rank} {tag : Tag} {payload : Payload} {range : TagRange}
  {ch : Channel}

/-- Where there is nothing under some tags, retiring them changes nothing. -/
theorem Clear.retire (h : c.Clear r range) : c.retire r range = c := by
  have hkeep : ∀ {β : Type} (es : List (Channel × β)),
      (∀ ch : Channel, range.contains ch.tag = true → along ch es = []) →
        es.filter (fun e => !range.contains e.1.tag) = es ∧
          es.filter (fun e => range.contains e.1.tag) = [] := by
    intro β es hes
    have hout : ∀ e ∈ es, range.contains e.1.tag = false := fun e he =>
      Bool.eq_false_iff.mpr fun hin =>
        List.ne_nil_of_mem (mem_along.mpr (show (e.1, e.2) ∈ es from he)) (hes e.1 hin)
    refine ⟨List.filter_eq_self.mpr fun e he => ?_, List.filter_eq_nil_iff.mpr fun e he => ?_⟩
    · rw [hout e he]
      rfl
    · rw [hout e he]
      exact Bool.false_ne_true
  unfold Cluster.retire
  dsimp only
  rw [(hkeep _ fun ch hch => (h ch hch).1).1, (hkeep _ fun ch hch => (h ch hch).2).1,
    (hkeep _ fun ch hch => (h ch hch).2).2]
  have hset : c.mailboxes.set r (c.mailboxes.getD r {}) = c.mailboxes := by
    refine List.ext_getElem? fun q => ?_
    rw [List.getElem?_set]
    split
    · rename_i hq
      subst hq
      split
      · rename_i hlt
        rw [List.getD_eq_getElem?_getD, List.getElem?_eq_getElem hlt]
        rfl
      · rename_i hlt
        exact (List.getElem?_eq_none (Nat.le_of_not_lt hlt)).symm
    · rfl
  show { c with mailboxes := c.mailboxes.set r (c.mailboxes.getD r {}), receipts := c.receipts } = c
  rw [hset]

/-- A message concerns one tag. -/
theorem queues_send (r : Rank) (h : c.send src dst tag payload = .ok c') (hch : ch.tag ≠ tag) :
    c'.messages r ch = c.messages r ch ∧ c'.waiters r ch = c.waiters r ch := by
  have hne : ¬(r = dst ∧ ch = ⟨src, tag⟩) := fun hc => hch (by rw [hc.2])
  have hdst : dst < c.size := by
    refine Nat.lt_of_not_le fun hle => ?_
    unfold send at h
    rw [List.getElem?_eq_none hle] at h
    cases h
  have hlive : (src, dst) ∉ c.severed := by
    intro hs
    unfold send at h
    rw [getElem?_mailboxes hdst] at h
    dsimp only at h
    rw [if_pos hs] at h
    cases h
  rcases send_cases tag payload hdst hlive with
    ⟨-, c'', hok, -, -, hc⟩ | ⟨t, ts, -, c'', rest, hok, -, -, -, -, hc⟩
  · obtain rfl := Except.ok.inj (h.symm.trans hok)
    exact ⟨hc.messages_other r ch hne, hc.waiters_other r ch hne⟩
  · obtain rfl := Except.ok.inj (h.symm.trans hok)
    exact ⟨hc.messages_other r ch hne, hc.waiters_other r ch hne⟩

/-- A receive concerns one tag. -/
theorem queues_receive (rank src r : Rank) (hch : ch.tag ≠ tag) :
    (c.receive rank src tag).1.messages r ch = c.messages r ch ∧
      (c.receive rank src tag).1.waiters r ch = c.waiters r ch := by
  have hne : ¬(r = rank ∧ ch = ⟨src, tag⟩) := fun hc => hch (by rw [hc.2])
  by_cases hsrc : src < c.size
  · by_cases hrank : rank < c.size
    case neg =>
      have hout : c.mailboxes.length ≤ rank := Nat.le_of_not_lt hrank
      unfold receive
      dsimp only
      rw [if_pos hsrc]
      split
      · rw [List.set_eq_of_length_le hout]
        exact ⟨rfl, rfl⟩
      · rw [List.set_eq_of_length_le hout]
        exact ⟨rfl, rfl⟩
    cases hm : c.messages rank ⟨src, tag⟩ with
    | nil =>
      obtain ⟨c', hok, -, -, hc⟩ := receive_of_messages_nil hrank hsrc hm
      rw [hok]
      exact ⟨hc.messages_other r ch hne, hc.waiters_other r ch hne⟩
    | cons p ps =>
      obtain ⟨c', hok, -, -, hc⟩ := receive_of_messages_cons hrank hsrc hm
      rw [hok]
      exact ⟨hc.messages_other r ch hne, hc.waiters_other r ch hne⟩
  · unfold receive
    dsimp only
    rw [if_neg hsrc]
    exact ⟨rfl, rfl⟩

end Cluster

namespace Node

variable [Scalar α] {net net' : Cluster} {n : Node α} {t u : Task α} {r : Rank} {range : TagRange}

/-- Nothing comes under some tags by the start of a task that sends and receives under others. -/
theorem clear_start (hc : net.Clear r range) (hretire : ∀ tags, t.job ≠ .retire tags)
    (hout : ∀ h q tag, t.job = .send h q tag ∨ t.job = .receive h q tag → ¬range.contains tag = true) :
    (start net n t).1.Clear r range := by
  have hs := starts_of_start net n t
  generalize start net n t = p at hs ⊢
  obtain ⟨net', n'⟩ := p
  cases hs with
  | receives h src tag job =>
    intro ch hch
    have hne : ch.tag ≠ tag := fun heq => hout h src tag (Or.inr job) (heq ▸ hch)
    have hsame := Cluster.queues_receive (c := net) n.rank src r hne
    exact ⟨hsame.1.trans (hc ch hch).1, hsame.2.trans (hc ch hch).2⟩
  | sends h dst tag block net' job opened sent =>
    intro ch hch
    have hne : ch.tag ≠ tag := fun heq => hout h dst tag (Or.inl job) (heq ▸ hch)
    have hsame := Cluster.queues_send r sent hne
    exact ⟨hsame.1.trans (hc ch hch).1, hsame.2.trans (hc ch hch).2⟩
  | retires tags job => exact absurd job (hretire tags)
  | computes | refused | unopened | evicts | unfreed | grants | vacant | withdrawn => exact hc

/-- A task that retires tags under which there is nothing does nothing. -/
theorem start_retire {tags : TagRange} (hjob : t.job = .retire tags) (hc : net.Clear n.rank tags) :
    start net n t = (net, n.post (.complete t.id)) := by
  unfold start
  rw [hjob]
  dsimp only
  rw [hc.retire]

end Node

/-! ## Receives are over before tags are retired -/

theorem Before.of_append_left {β : Type} {l₁ l₂ : List β} {x y : β} (h : Before (l₁ ++ l₂) x y)
    (hy : y ∉ l₂) : Before l₁ x y := by
  induction l₁ with
  | nil => exact absurd h.mem_right hy
  | cons z l₁ ih => exact h.imp (And.imp_right fun hin => (List.mem_append.mp hin).resolve_right hy) ih

namespace Node.Tended

variable {first : Tag} {d : Diary α} {n : Node α} {s : Scheduler α} {e : Event α}
  {events : List (Event α)} {p : Scheduler α × Reaction α} {t u : Task α} {T : Tensor}
  {h : HandleId} {k : TaskId}

section

variable (ht : n.Tended first d s) (he : n.events = e :: events) (hok : s.react e = .ok p)

include ht he hok

omit ht he hok in
/-- The tasks that have been given stay the same when an event is taken. -/
theorem given_eq (he : n.events = e :: events) (p : Scheduler α × Reaction α) :
    (d.record.add e p.2).submitted ++ submits events = n.given d.record := by
  rw [Kept.log_add, ← he]
  rfl

/-- What is started is as it was given, unless it is an accessor. -/
theorem mem_given_of_started (hu : u ∈ p.2.started) :
    ∃ v ∈ (d.record.add e p.2).submitted, v.id = u.id ∧
      (u = v ∨ (v.job = .grant ∧ u.job = .withdrawn)) := by
  have hk := ht.kept.of_react he hok
  obtain ⟨v, hv, rfl | ⟨hgrant, rfl⟩⟩ := hk.fits.started u (hk.starting hu)
  · exact ⟨u, hv, rfl, Or.inl rfl⟩
  · exact ⟨v, hv, rfl, Or.inr ⟨hgrant, rfl⟩⟩

omit ht hok in
theorem mem_given (hu : u ∈ (d.record.add e p.2).submitted) : u ∈ n.given d.record :=
  given_eq he p ▸ List.mem_append_left _ hu

/-- The task of a tensor that was given up is started to retire its tags. -/
theorem retires_of_started (hu : u ∈ p.2.started) (hdrop : (u.id, T) ∈ d.drops) :
    T.Retires u ∧ u ∈ (d.record.add e p.2).submitted := by
  obtain ⟨v, hv, hid, hor⟩ := ht.mem_given_of_started he hok hu
  have hretires := ht.accounts.retires_of_mem ht.kept.nodup hdrop (mem_given he hv) hid
  rcases hor with rfl | ⟨hgrant, -⟩
  · exact ⟨hretires, hv⟩
  · rw [hretires.job] at hgrant
    cases hgrant

/-- When a task retires the tags of a tensor, every receive on its buffers has ended. -/
theorem ended_of_asked (hu : u ∈ p.2.started) (hdrop : (u.id, T) ∈ d.drops)
    (hasked : (h, k) ∈ d.mail.asked) (hh : h ∈ T.handles) : k ∈ (d.record.add e p.2).ended := by
  have hk := ht.kept.of_react he hok
  obtain ⟨hretires, hu'⟩ := ht.retires_of_started he hok hu hdrop
  obtain ⟨v, hv, rfl, src, tag, hjob⟩ := ht.accounts.asked _ hasked
  have huses : v.uses = [(h, .write)] := by
    have hmay := ht.kept.may v hv
    unfold May at hmay
    rw [hjob] at hmay
    exact hmay.1
  have hconflict : Conflict v.uses u.uses := by
    rw [huses, hretires.uses]
    refine Conflict.of_write (h := h) (a := .write) (b := .write) List.mem_cons_self ?_ rfl (by decide)
    exact List.mem_map_of_mem (f := fun h => (h, Access.write)) hh
  have hne : v ≠ u := by
    rintro rfl
    rw [hretires.job] at hjob
    cases hjob
  refine hk.fits.turn v u ?_ hconflict (List.mem_map_of_mem (hk.starting hu))
  have hgiven := given_eq (d := d) he p
  have hbefore : Before (n.given d.record) v u := by
    rcases Before.total hv (mem_given he hu') with heq | hbefore | hafter
    · exact absurd heq hne
    · exact hbefore
    · have hin : u.id ∈ d.retired := List.mem_map_of_mem (f := Prod.fst) hdrop
      exact absurd hconflict.symm (ht.accounts.spares _ _ (hafter.map Task.entry) hin)
  rw [← hgiven] at hbefore
  refine hbefore.of_append_left fun hin => ?_
  have hnodup := ht.kept.nodup
  change ((n.given d.record).map _).Nodup at hnodup
  rw [← hgiven, List.map_append] at hnodup
  exact List.disjoint_of_nodup_append hnodup (List.mem_map_of_mem hu') (List.mem_map_of_mem hin)

/-- What is started with a task that retires the tags of a tensor concerns another tensor. -/
theorem notMem_of_started (ht' : t ∈ p.2.started) (hu : u ∈ p.2.started) (hdrop : (u.id, T) ∈ d.drops)
    {q : Rank} {tag : Tag} (hjob : t.job = .send h q tag ∨ t.job = .receive h q tag) :
    h ∉ T.handles ∧ tag = ⟨first.val + h⟩ := by
  have hk := ht.kept.of_react he hok
  obtain ⟨hretires, hu'⟩ := ht.retires_of_started he hok hu hdrop
  obtain ⟨v, hv, hid, hor⟩ := ht.mem_given_of_started he hok ht'
  obtain rfl : t = v := hor.resolve_right fun hw => by
    rcases hjob with hjob | hjob <;>
    · rw [hjob] at hw
      cases hw.2
  have hgiven := mem_given he hv
  refine ⟨fun hh => ?_, ht.accounts.tagged t hgiven h q tag hjob⟩
  have hne : t.id ≠ u.id := by
    intro heq
    have hsame := (ht.accounts.retires_of_mem ht.kept.nodup hdrop hgiven heq).job
    rcases hjob with hjob | hjob <;>
    · rw [hsame] at hjob
      cases hjob
  obtain ⟨a, huses⟩ : ∃ a, (h, a) ∈ t.uses ∧ a ≠ .scratch := by
    have hmay := ht.kept.may t hgiven
    unfold May at hmay
    rcases hjob with hjob | hjob
    · rw [hjob] at hmay
      exact ⟨.read, hmay.1 ▸ List.mem_cons_self, by decide⟩
    · rw [hjob] at hmay
      exact ⟨.write, hmay.1 ▸ List.mem_cons_self, by decide⟩
  refine hk.fits.exclusive.apart u hu' t hv hne.symm (List.mem_map_of_mem (hk.starting hu))
    (List.mem_map_of_mem (hk.starting ht')) (ht.kept.starting_of_react he hok hu).2
    (ht.kept.starting_of_react he hok ht').2 ?_
  rw [hretires.uses]
  refine Conflict.of_write (h := h) (a := .write) (b := a) ?_ huses.1 rfl huses.2
  exact List.mem_map_of_mem (f := fun h => (h, Access.write)) hh

end

end Node.Tended

/-! ## Receives of the double -/

section

variable [Scalar α] {first : Tag} {d : Diary α} {n n₀ : Node α} {s : Scheduler α} {e : Event α}
  {events : List (Event α)} {p : Scheduler α × Reaction α} {tasks' : Roster} {x : Guise α}
  {hist : List (Entry α)} {V : Nat → Option (List α)} {log : List (Task α)} {done : TaskId → Prop}
  {m : Mail} {h : HandleId} {k : TaskId} {u : Task α} {T : Tensor}

/-- A receive that a rank has queued stands for a line. -/
theorem Mail.Tallies.exists_duty (hm : m.Tallies n₀ hist V done) (hasked : (h, k) ∈ m.asked) :
    ∃ i, (n₀.duties hist)[k]? = some (i, .transfer h n₀.rank) := by
  obtain ⟨L, -, hL⟩ := hm.asked h
  obtain ⟨j, hj, heq⟩ := List.getElem_of_mem (mem_along.mpr hasked)
  have hduty := hL.get (hL.length_eq ▸ hj) hj
  rw [List.get_eq_getElem, List.get_eq_getElem, heq] at hduty
  exact ⟨_, hduty⟩

/-- A receive that is done has been taken. -/
theorem Mail.Tallies.exists_taken (hm : m.Tallies n₀ hist V done) (hasked : (h, k) ∈ m.asked)
    (hdone : done k) : ∃ payload, (h, k, payload) ∈ m.taken := by
  obtain ⟨i, hi⟩ := hm.exists_duty hasked
  obtain ⟨L, he, hL⟩ := hm.taken h
  obtain ⟨j, hj, rfl⟩ := List.getElem_of_mem ((he.mem i).mpr ⟨k, hi, hdone⟩)
  have hj' : j < (along h m.taken).length := hL.length_eq ▸ hj
  obtain ⟨htaken, -⟩ := hL.get hj hj'
  have hmem := mem_along.mp (List.getElem_mem hj')
  obtain rfl := Node.duty_unique htaken hi rfl rfl (by simp [Entry.line?]) (by simp [Entry.line?])
  exact ⟨_, hmem⟩

omit [Scalar α] in
theorem Queued.eq_submits {m : Nat} {rest : List (Task α)} {events : List (Event α)}
    (h : Queued m rest events) : rest = submits events := by
  induction events generalizing m rest with
  | nil => exact h
  | cons e events ih =>
    cases e with
    | submit t =>
      obtain ⟨rest', rfl, h⟩ := h
      exact congrArg (t :: ·) (ih h)
    | complete k => exact ih h.2
    | fail k f => exact ih h.2
    | wait b => exact ih h

omit [Scalar α] in
theorem Scheduler.Record.ended_add {b : Scheduler.Record α} {r : Reaction α}
    (h : k ∈ (b.add e r).ended) : k ∈ b.ended ∨ e.ended? = some k := by
  unfold add at h
  dsimp only at h
  split at h
  · rename_i j hj
    split at h
    · rcases List.mem_append.mp h with h | h
      · exact Or.inl h
      · exact Or.inr (List.mem_singleton.mp h ▸ hj)
    · exact Or.inl h
  · exact Or.inl h

omit [Scalar α] in
/-- A receive is no task that retires tags. -/
theorem Node.Tended.notMem_retired (ht : n.Tended first d s) (hasked : (h, k) ∈ d.mail.asked) :
    k ∉ d.retired := by
  intro hin
  obtain ⟨v, hv, rfl, src, tag, hjob⟩ := ht.accounts.asked _ hasked
  obtain ⟨T, hdrop⟩ := Diary.Accounts.exists_drop hin
  have hretires := ht.accounts.retires_of_mem ht.kept.nodup hdrop hv rfl
  rw [hretires.job] at hjob
  cases hjob

/-- A receive that has ended is done for the double. -/
theorem Node.Tended.done_of_ended (ht : n.Tended first d s) (he : n.events = e :: events)
    (hx : Node.Abreast d.retired d.record.roster tasks' n x)
    (hl : (n.under x).Ledger n₀ hist V log done []) (hm : m.Tallies n₀ hist V done)
    (hsame : m.asked = d.mail.asked) (hasked : (h, k) ∈ d.mail.asked)
    (hended : k ∈ (d.record.add e p.2).ended) : done k := by
  obtain ⟨s', hs', twin⟩ := hx.twin ht.kept.scheduler
  obtain ⟨l, roster, hr⟩ := hl.account.orderly.running s' hs'
  have hout := ht.notMem_retired hasked
  obtain ⟨i, hi⟩ := hm.exists_duty (hsame.symm ▸ hasked)
  obtain ⟨v, hv, hdesc⟩ := hl.exists_task hi
  rcases Scheduler.Record.ended_add hended with hended | hend
  · by_contra hundone
    have hgone : s'.graph.contains k = false := by
      rw [twin.contains k hout, Bool.eq_false_iff]
      exact fun hin => ((ht.kept.fits.unfinished k).mp hin).2 hended
    have hnotin : k ∉ roster.map (·.1) := by
      rw [← hr.tracks.keys, ← Table.has_iff]
      exact Bool.eq_false_iff.mp hgone
    have hle : l ≤ k := Nat.le_of_not_lt fun hlt => hundone (hr.gone k hlt hnotin)
    -- the receive would still be on its way to the scheduler
    have hdrop : v ∈ submits (n.under x).events := by
      rw [← hr.queued.eq_submits]
      refine List.mem_of_getElem? (i := k - l) ?_
      rw [List.getElem?_drop, Nat.add_sub_cancel' hle]
      exact hv
    obtain ⟨f, hf, hfv⟩ := List.mem_filterMap.mp hdrop
    obtain ⟨hid, -⟩ := hl.account.orderly.sound.proper k v hv
    obtain rfl : f = .submit v := by
      cases f with
      | submit w => exact congrArg _ (Option.some.inj hfv)
      | complete | fail | wait => cases hfv
    have hhidden : Event.hidden d.retired (.submit v) = false := decide_eq_false (hid.symm ▸ hout)
    have hin : v ∈ submits n.events := List.mem_filterMap.mpr ⟨_, (hx.mem_events_iff hhidden).mp hf, rfl⟩
    have hnodup := ht.kept.nodup
    rw [List.map_append] at hnodup
    exact List.disjoint_of_nodup_append hnodup (ht.kept.fits.lt_of_ended hended)
      (hid ▸ List.mem_map_of_mem hin)
  · have hhidden : e.hidden d.retired = false := by
      cases e with
      | submit t => cases hend
      | complete j => exact Option.some.inj hend ▸ decide_eq_false hout
      | fail j f => exact Option.some.inj hend ▸ decide_eq_false hout
      | wait b => cases hend
    have hin : e ∈ x.events := (hx.mem_events_iff hhidden).mpr (he ▸ List.mem_cons_self)
    refine (hr.reported k (List.mem_filterMap.mpr ⟨e, hin, hend⟩)).resolve_right ?_
    rintro ⟨⟨v', hv', hgrant⟩, -⟩
    obtain rfl := Option.some.inj (hv.symm.trans hv')
    obtain ⟨tag, -, hjob⟩ := hdesc
    rw [Node.errand, if_pos rfl] at hjob
    rw [hjob] at hgrant
    cases hgrant

end

/-! ## No message is on its way -/

/-- A rank that has given a tensor up has come past all lines for its tiles. -/
theorem line_lt_of_drop {program ms ms' : List Milestone} {T : Tensor} {i : Nat} {l : Line}
    (hms : ms <+: program) (hms' : ms' <+: program) (hdrop : .drop T ∈ ms)
    (horder : ∀ l, Before ms' (.drop T) (.line l) → l.tile ∉ T.handles)
    (hi : (ms'.filterMap Milestone.line?)[i]? = some l) (hl : l.tile ∈ T.handles) :
    i < (ms.filterMap Milestone.line?).length := by
  rcases List.prefix_or_prefix_of_prefix hms' hms with ⟨rest, rfl⟩ | ⟨rest, rfl⟩
  · rw [List.filterMap_append, List.length_append]
    exact Nat.lt_of_lt_of_le (lt_of_getElem?_eq_some hi) (Nat.le_add_right _ _)
  · refine Nat.lt_of_not_le fun hle => ?_
    rw [List.filterMap_append, List.getElem?_append_right hle] at hi
    obtain ⟨x, hx, hline⟩ := List.mem_filterMap.mp (List.mem_of_getElem? hi)
    obtain rfl : x = .line l := by
      cases x with
      | line l' => exact congrArg _ (Option.some.inj hline)
      | drop t => cases hline
    exact horder l (.of_append hdrop hx) hl

section

variable [Scalar α] {w₀ : World α} {tiles : List Tensor.Blueprint} {plan : List Line} {net : Cluster}
  {V : Nat → Option (List α)} {site : Rank → Site α} {r : Rank} {first : Tag} {T : Tensor} {m : Nat}

/-- A receive for a line has been queued. -/
theorem Mail.Tallies.mem_asked {m : Mail} {n₀ : Node α} {hist : List (Entry α)} {done : TaskId → Prop}
    {h : HandleId} {k : TaskId} {i : Nat} (hm : m.Tallies n₀ hist V done)
    (hk : (n₀.duties hist)[k]? = some (i, .transfer h n₀.rank)) : (h, k) ∈ m.asked := by
  obtain ⟨L, he, hL⟩ := hm.asked h
  obtain ⟨j, hj, rfl⟩ := List.getElem_of_mem ((he.mem i).mpr ⟨k, hk⟩)
  have hj' : j < (along h m.asked).length := hL.length_eq ▸ hj
  have hsame := hL.get hj hj'
  obtain rfl := Node.duty_unique hk hsame rfl rfl (by simp [Entry.line?]) (by simp [Entry.line?])
  exact mem_along.mp (List.getElem_mem hj')

/-- Where all receives of a rank on the buffers of a tensor are done, and it has come past all lines
for its tiles that an owner has come past, nothing is under the tags of the tensor. -/
theorem Coherent.clear (hw : w₀.Common tiles plan) (hc : Coherent w₀ tiles plan net V site)
    (hr : r < w₀.size) (htags : ∀ (h : HandleId) b, tiles[h]? = some b → b.tag = ⟨first.val + h⟩)
    (hplaced : T.Placed first m)
    (hdone : ∀ h ∈ T.handles, ∀ k i, Asks w₀ site r k i h → (site r).done k)
    (hpast : ∀ h ∈ T.handles, ∀ q < w₀.size, ∀ i, (lines (site q).hist)[i]? = some (.transfer h r) →
      i < (lines (site r).hist).length) : net.Clear r T.tags := by
  intro ch hch
  by_cases htile : ∃ b ∈ tiles, ch = b.channel
  case neg => exact hc.wire.others r hr ch fun b hb heq => htile ⟨b, hb, heq⟩
  obtain ⟨b, hb, rfl⟩ := htile
  obtain ⟨h, hb⟩ := List.getElem?_of_mem hb
  have hh : h ∈ T.handles := by
    rw [← hplaced.contains_iff, ← htags h b hb]
    exact hch
  constructor
  · obtain ⟨L, he, hL⟩ := hc.wire.messages r hr h b hb
    rw [hL, List.map_eq_nil_iff, List.eq_nil_iff_forall_not_mem]
    intro i hi
    obtain ⟨hcar, hV, hbegun⟩ := (he.mem i).mp hi
    obtain ⟨block, hblock⟩ := Option.ne_none_iff_exists'.mp hV
    -- the owner has come past the line, so the rank has, and its receive is done
    obtain ⟨k, hk, -, -⟩ := hc.source_of_carried hw hb hcar hblock
    have ho : b.owner < w₀.size := hw.owners b (List.mem_of_getElem? hb)
    obtain ⟨hline, -⟩ := Node.carried_of_duty hk
    obtain ⟨k', hk'⟩ := hc.exists_duty hw hr hb hcar (hpast h hh _ ho i hline.1) (Or.inl rfl)
    exact hbegun ⟨k', hk', Or.inl (hdone h hh k' i hk')⟩
  · rw [List.eq_nil_iff_forall_not_mem]
    intro k hk
    obtain ⟨a, ha, rfl, -, -, i, hi, -, -⟩ := hc.wire.waiting_arrival hr hb hk
    exact (hc.ledger r hr).account.orderly.sound.undone a.id (Or.inr (Or.inl ⟨a, ha, rfl⟩))
      (hdone a.handle hh a.id i hi)

end

/-! ## Tasks that retire tags do nothing -/

/-- Of each tensor whose tags a task is about to retire nothing is left in the cluster. -/
def Diary.Calm (d : Diary α) (r : Rank) (started : List (Task α)) (net : Cluster) : Prop :=
  ∀ u ∈ started, ∀ T, (u.id, T) ∈ d.drops → net.Clear r T.tags

namespace Node.Tended

variable [Scalar α] {first : Tag} {d : Diary α} {n m : Node α} {s : Scheduler α} {e : Event α}
  {events : List (Event α)} {p : Scheduler α × Reaction α} {t u : Task α} {net : Cluster}

theorem start_retired (ht : n.Tended first d s) (he : n.events = e :: events) (hok : s.react e = .ok p)
    (hu : u ∈ p.2.started) (hid : u.id ∈ d.retired) (hcalm : d.Calm n.rank p.2.started net)
    (hm : m.rank = n.rank) : start net m u = (net, m.post (.complete u.id)) := by
  obtain ⟨T, hdrop⟩ := Diary.Accounts.exists_drop hid
  refine start_retire (ht.retires_of_started he hok hu hdrop).1.job ?_
  rw [hm]
  exact hcalm u hu T hdrop

/-- The other tasks leave it so. -/
theorem calm_start (ht : n.Tended first d s) (hstocked : n.Stocked first d) (he : n.events = e :: events)
    (hok : s.react e = .ok p) (ht' : t ∈ p.2.started) (hid : t.id ∉ d.retired)
    (hcalm : d.Calm n.rank p.2.started net) : d.Calm n.rank p.2.started (start net m t).1 := by
  intro u hu T hdrop
  refine clear_start (hcalm u hu T hdrop) (fun tags hjob => hid ?_) fun h q tag hjob hin => ?_
  · obtain ⟨v, hv, -, rfl | ⟨-, hw⟩⟩ := ht.mem_given_of_started he hok ht'
    · exact ht.accounts.retires t (mem_given he hv) tags hjob
    · rw [hw] at hjob
      cases hjob
  · obtain ⟨hout, rfl⟩ := ht.notMem_of_started he hok ht' hu hdrop hjob
    have hplaced := hstocked.placed_of_drop (List.mem_map_of_mem (f := Prod.snd) hdrop)
    exact hout (hplaced.contains_iff.mp hin)

end Node.Tended

end TiledTensor

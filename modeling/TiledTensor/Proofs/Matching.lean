import TiledTensor.Proofs.Exchange

/-!
# Mailboxes and their exchange

A cluster differs from its exchange in what it keeps: it forgets what has been matched, and it keeps
the receives that were given up until a message passes over them.  `Cluster.Follows` says how the
two go together.  Every operation keeps them together and is answered alike by both, so that the
mailboxes of a cluster are as many channels that know nothing of each other.
-/

namespace TiledTensor

namespace Cluster

variable {c c' : Cluster} {e e' : Exchange} {r : Rank} {ch : Channel} {t : Ticket} {f : Pipe → Pipe}

/-- The mailboxes hold what is left over on the channels, and receives that were given up. -/
structure Queues (c : Cluster) (e : Exchange) : Prop where
  messages : ∀ r ch, c.messages r ch = (e.pipes r ch).current.unclaimed
  waiters : ∀ r ch,
    (c.waiters r ch).filter (fun t => (e.held t).isSome) = (e.pipes r ch).current.unserved
  one_side : ∀ r ch, c.messages r ch = [] ∨ c.waiters r ch = []
  queued : ∀ r ch, ∀ t ∈ c.waiters r ch, t < c.nextTicket

/-- The cluster has matched the messages and the receives of the exchange. -/
structure Follows (c : Cluster) (e : Exchange) : Prop extends Queues c e where
  size : c.size = e.size
  severed : c.severed = []
  ticket : c.nextTicket = e.nextTicket
  receipts : ∀ t, c.receipts.find? t = e.receipt t
  sound : e.Sound

theorem follows_ofSize (n : Nat) : (ofSize n).Follows (Exchange.ofSize n) := by
  have hbox : ∀ r, (ofSize n).mailboxes.getD r {} = {} := by
    intro r
    rw [List.getD_eq_getElem?_getD, ofSize, List.getElem?_replicate]
    split <;> rfl
  have hm : ∀ r ch, (ofSize n).messages r ch = [] := fun r ch => by
    rw [messages, hbox]
    rfl
  have hw : ∀ r ch, (ofSize n).waiters r ch = [] := fun r ch => by
    rw [waiters, hbox]
    rfl
  exact ⟨⟨hm, fun r ch => by rw [hw]; rfl, fun r ch => Or.inl (hm r ch),
    fun r ch t ht => absurd (hw r ch ▸ ht) List.not_mem_nil⟩, List.length_replicate, rfl, rfl,
    fun _ => rfl, Exchange.sound_ofSize n⟩

/-- What happens on one channel. -/
theorem Queues.change (hq : c.Queues e) {ms : List Payload} {ws : List Ticket}
    (hch : c.Changes c' r ch ms ws) (hpipes : e'.pipes = (e.change r ch f).pipes)
    (hheld : ∀ t < c.nextTicket, (e'.held t).isSome = (e.held t).isSome)
    (hnext : c.nextTicket ≤ c'.nextTicket) (hm : ms = (f (e.pipes r ch)).current.unclaimed)
    (hw : ws.filter (fun t => (e'.held t).isSome) = (f (e.pipes r ch)).current.unserved)
    (hone : ms = [] ∨ ws = []) (hqueued : ∀ t ∈ ws, t < c'.nextTicket) : c'.Queues e' := by
  refine ⟨fun r' ch' => ?_, fun r' ch' => ?_, fun r' ch' => ?_, fun r' ch' t ht => ?_⟩
  all_goals by_cases h : r' = r ∧ ch' = ch
  · obtain ⟨rfl, rfl⟩ := h
    rw [hch.messages_self, hpipes, Exchange.change_self, hm]
  · rw [hch.messages_other r' ch' h, hpipes, Exchange.change_other h, hq.messages]
  · obtain ⟨rfl, rfl⟩ := h
    rw [hch.waiters_self, hpipes, Exchange.change_self, hw]
  · rw [hch.waiters_other r' ch' h, hpipes, Exchange.change_other h, ← hq.waiters]
    exact List.filter_congr fun t ht => hheld t (hq.queued r' ch' t ht)
  · obtain ⟨rfl, rfl⟩ := h
    rwa [hch.messages_self, hch.waiters_self]
  · rw [hch.messages_other r' ch' h, hch.waiters_other r' ch' h]
    exact hq.one_side r' ch'
  · obtain ⟨rfl, rfl⟩ := h
    exact hqueued t (hch.waiters_self ▸ ht)
  · rw [hch.waiters_other r' ch' h] at ht
    exact Nat.lt_of_lt_of_le (hq.queued r' ch' t ht) hnext

namespace Follows

/-- Of the queued receives, those that have not been given up are live. -/
theorem live_eq (hf : c.Follows e) (ht : t ∈ c.waiters r ch) : c.live t = (e.held t).isSome := by
  rw [live, hf.receipts]
  cases hheld : e.held t with
  | none => simp [Exchange.receipt, hheld]
  | some o =>
    have hmem : t ∈ (e.pipes r ch).current.unserved :=
      hf.waiters r ch ▸ List.mem_filter.mpr ⟨ht, by rw [hheld]; rfl⟩
    have hown : e.held t = some (r, ch) :=
      hf.sound.held_of_mem_unserved (by rw [hheld]; rfl) hmem
    rw [hf.sound.receipt_eq_waiting_iff.mpr ⟨r, ch, hown, hmem⟩]
    rfl

/-- The live receives of a channel are those that wait. -/
theorem filter_live (hf : c.Follows e) (r : Rank) (ch : Channel) :
    (c.waiters r ch).filter c.live = (e.pipes r ch).current.unserved := by
  rw [← hf.waiters]
  exact List.filter_congr fun t ht => hf.live_eq ht

/-- A message is sent to a rank of the world. -/
theorem send (hf : c.Follows e) (payload : Payload) {dst : Rank} (src : Rank) (tag : Tag)
    (hdst : dst < c.size) : ∃ c', c.send src dst tag payload = .ok c' ∧
      c'.Follows (e.change dst ⟨src, tag⟩ (·.send payload)) := by
  have hsound : (e.change dst ⟨src, tag⟩ (·.send payload)).Sound :=
    hf.sound.change (List.Sublist.refl _)
  have hs : (src, dst) ∉ c.severed := by
    rw [hf.severed]
    exact List.not_mem_nil
  have hlive := hf.filter_live dst ⟨src, tag⟩
  rcases c.send_cases tag payload hdst hs with
    ⟨hnil, c', hok, hreceipts, hnext, hch⟩ | ⟨t, ts, hcons, c', rest, hok, hreceipts, hnext, hrest, hsub, hch⟩
  · obtain ⟨hserved, hunserved, hunclaimed⟩ :=
      Round.send_of_unserved_nil payload (hlive.symm.trans hnil)
    refine ⟨c', hok, hf.toQueues.change hch rfl (fun _ _ => rfl) (Nat.le_of_eq hnext.symm) ?_ ?_
      (Or.inr rfl) (fun _ h => absurd h List.not_mem_nil), hch.size.trans hf.size,
      hch.severed.trans hf.severed, hnext.trans hf.ticket, fun t' => ?_, hsound⟩
    · rw [hf.messages]
      exact hunclaimed.symm
    · exact hunserved.symm
    · rw [hreceipts, hf.receipts]
      refine (Exchange.receipt_change fun _ => Pipe.receipt_congr rfl ?_ Iff.rfl).symm
      exact congrArg (Table.find? · t') hserved
  · obtain ⟨hserved, hunserved, hunclaimed⟩ :=
      Round.send_of_unserved_cons payload (hlive.symm.trans hcons)
    have ht : t ∈ c.waiters dst ⟨src, tag⟩ ∧ c.live t = true :=
      List.mem_filter.mp (hcons ▸ List.mem_cons_self)
    have hmem : t ∈ (e.pipes dst ⟨src, tag⟩).current.unserved :=
      hlive ▸ hcons ▸ List.mem_cons_self
    have hheld : e.held t = some (dst, ⟨src, tag⟩) :=
      hf.sound.held_of_mem_unserved (hf.live_eq ht.1 ▸ ht.2) hmem
    have hempty : c.messages dst ⟨src, tag⟩ = [] :=
      (hf.one_side dst _).resolve_right (List.ne_nil_of_mem ht.1)
    refine ⟨c', hok, hf.toQueues.change hch rfl (fun _ _ => rfl) (Nat.le_of_eq hnext.symm) ?_ ?_
      (Or.inl hempty) (fun t' h => hnext ▸ hf.queued dst _ t' (hsub.subset h)),
      hch.size.trans hf.size, hch.severed.trans hf.severed, hnext.trans hf.ticket, fun t' => ?_,
      hsound⟩
    · exact hempty.trans hunclaimed.symm
    · refine Eq.trans ?_ (hrest.trans hunserved.symm)
      exact List.filter_congr fun t' h => (hf.live_eq (hsub.subset h)).symm
    · rw [hreceipts, Table.find?_put]
      split
      · rename_i heq
        subst heq
        rw [Exchange.receipt_change_self hheld
          (hf.sound.inside dst _ t' (Pipe.mem_asked_of_unserved hmem))]
        refine congrArg some (Pipe.receipt_of_served hserved fun hkey => ?_).symm
        have hnodup : (e.pipes dst ⟨src, tag⟩).current.asked.Nodup :=
          (hf.sound.nodup dst ⟨src, tag⟩).of_append_left
        rw [Round.asked_eq] at hnodup
        exact List.disjoint_of_nodup_append hnodup hkey hmem
      · rename_i hne
        rw [hf.receipts]
        refine (Exchange.receipt_change fun _ => Pipe.receipt_congr rfl ?_ Iff.rfl).symm
        refine (congrArg (Table.find? · t') hserved).trans ?_
        rw [Table.find?_append_singleton, if_neg hne, Option.or_none]

/-- A receive from a rank of the world. -/
theorem receive (hf : c.Follows e) {rank src : Rank} (tag : Tag) (hrank : rank < c.size)
    (hsrc : src < c.size) : ∃ c', c.receive rank src tag = (c', e.nextTicket) ∧
      c'.Follows ((e.change rank ⟨src, tag⟩ (·.ask e.nextTicket)).hold rank ⟨src, tag⟩) := by
  have hsound : ((e.change rank ⟨src, tag⟩ (·.ask e.nextTicket)).hold rank ⟨src, tag⟩).Sound :=
    hf.sound.ask (hf.size ▸ hsrc)
  have hheld : ∀ t < c.nextTicket,
      (((e.change rank ⟨src, tag⟩ (·.ask e.nextTicket)).hold rank ⟨src, tag⟩).held t).isSome =
        (e.held t).isSome := by
    intro t ht
    rw [Exchange.held_hold, if_neg (Nat.ne_of_lt (hf.ticket ▸ ht)), Exchange.held_change]
  have hnew : e.nextTicket ∉ (e.pipes rank ⟨src, tag⟩).asked :=
    fun h => Nat.lt_irrefl _ (hf.sound.issued rank _ _ h)
  cases hm : c.messages rank ⟨src, tag⟩ with
  | nil =>
    obtain ⟨c', hok, hreceipts, hnext, hch⟩ := receive_of_messages_nil hrank hsrc hm
    obtain ⟨hserved, hunserved, hunclaimed⟩ :=
      Round.ask_of_unclaimed_nil (t := e.nextTicket) ((hf.messages rank _).symm.trans hm)
    refine ⟨c', hf.ticket ▸ hok, hf.toQueues.change (f := (·.ask e.nextTicket)) hch rfl hheld
      (hnext ▸ Nat.le_succ _)
      hunclaimed.symm ?_ (Or.inl rfl) (fun t ht => ?_), hch.size.trans hf.size,
      hch.severed.trans hf.severed, hnext.trans (congrArg (· + 1) hf.ticket), fun t => ?_, hsound⟩
    · refine Eq.trans ?_ hunserved.symm
      rw [List.filter_append, List.filter_congr fun t ht => hheld t (hf.queued rank _ t ht),
        hf.waiters, hf.ticket]
      refine congrArg ((e.pipes rank ⟨src, tag⟩).current.unserved ++ ·) ?_
      exact List.filter_cons_of_pos (by rw [Exchange.held_hold]; simp)
    · rw [hnext]
      rcases List.mem_append.mp ht with ht | ht
      · exact Nat.lt_succ_of_lt (hf.queued rank _ t ht)
      · rw [List.mem_singleton.mp ht]
        exact Nat.lt_succ_self _
    · rw [hreceipts, hf.ticket, Table.find?_put]
      split
      · rename_i heq
        rw [heq, Exchange.receipt_ask_self (hf.size ▸ hsrc)]
        refine congrArg some ((Pipe.receipt_eq_waiting_iff ?_).mpr ?_).symm
        · have := hsound.nodup rank ⟨src, tag⟩
          rwa [Exchange.pipes_hold, Exchange.change_self] at this
        · exact hunserved ▸ List.mem_append_right _ (List.mem_singleton_self _)
      · rename_i hne
        rw [hf.receipts, Exchange.receipt_ask_of_ne hne]
  | cons payload ps =>
    obtain ⟨c', hok, hreceipts, hnext, hch⟩ := receive_of_messages_cons hrank hsrc hm
    obtain ⟨hserved, hunserved, hunclaimed⟩ :=
      Round.ask_of_unclaimed_cons (t := e.nextTicket) ((hf.messages rank _).symm.trans hm)
    have hempty : c.waiters rank ⟨src, tag⟩ = [] :=
      (hf.one_side rank _).resolve_left (by rw [hm]; simp)
    refine ⟨c', hf.ticket ▸ hok, hf.toQueues.change (f := (·.ask e.nextTicket)) hch rfl hheld
      (hnext ▸ Nat.le_succ _)
      hunclaimed.symm ?_ (Or.inr hempty) (fun t ht => absurd (hempty ▸ ht) List.not_mem_nil),
      hch.size.trans hf.size, hch.severed.trans hf.severed,
      hnext.trans (congrArg (· + 1) hf.ticket), fun t => ?_, hsound⟩
    · rw [hempty]
      exact hunserved.symm
    · rw [hreceipts, hf.ticket, Table.find?_put]
      split
      · rename_i heq
        rw [heq, Exchange.receipt_ask_self (hf.size ▸ hsrc)]
        refine congrArg some (Pipe.receipt_of_served hserved fun hkey => hnew ?_).symm
        refine Pipe.mem_asked_of_current ?_
        rw [Round.asked_eq]
        exact List.mem_append_left _ hkey
      · rename_i hne
        rw [hf.receipts, Exchange.receipt_ask_of_ne hne]

/-- A receive that names a rank outside the world is refused and is on no channel. -/
theorem receive_outside (hf : c.Follows e) (rank : Rank) {src : Rank} (tag : Tag)
    (hsrc : ¬src < c.size) : ∃ c', c.receive rank src tag = (c', e.nextTicket) ∧
      c'.mailboxes = c.mailboxes ∧ c'.Follows (e.hold rank ⟨src, tag⟩) := by
  have hnext : c.nextTicket = e.nextTicket := hf.ticket
  refine ⟨{ c with
    receipts := c.receipts.put c.nextTicket (.refused (.noSuchRank src c.size))
    nextTicket := c.nextTicket + 1 }, ?_, rfl, ⟨hf.messages, fun r ch => ?_, hf.one_side,
      fun r ch t ht => Nat.lt_succ_of_lt (hf.queued r ch t ht)⟩, hf.size, hf.severed,
      congrArg (· + 1) hnext, fun t => ?_, hf.sound.hold⟩
  · rw [Cluster.receive, if_neg hsrc, hnext]
  · refine Eq.trans ?_ (hf.waiters r ch)
    refine List.filter_congr fun t ht => ?_
    rw [Exchange.held_hold, if_neg (Nat.ne_of_lt (hnext ▸ hf.queued r ch t ht))]
  · rw [hnext, Table.find?_put]
    split
    · rename_i heq
      rw [heq, Exchange.receipt_hold_self, if_neg (hf.size ▸ hsrc), hf.size]
    · rename_i hne
      rw [hf.receipts, Exchange.receipt_hold_of_ne hne]

/-- A receive is given up, or forgotten after it has been answered: what is left over on the
channels is the same without it. -/
theorem forget (hf : c.Follows e) (hsize : e'.size = e.size) (hticket : e'.nextTicket = e.nextTicket)
    (hheld : ∀ t', e'.held t' = if t' = t then none else e.held t')
    (hmessages : ∀ r ch, (e'.pipes r ch).current.unclaimed = (e.pipes r ch).current.unclaimed)
    (hwaiters : ∀ r ch, (e'.pipes r ch).current.unserved =
      (e.pipes r ch).current.unserved.filter fun t' => decide (t' ≠ t))
    (hreceipts : ∀ t' ≠ t, e'.receipt t' = e.receipt t') (hsound : e'.Sound) :
    (c.forget t).Follows e' := by
  refine ⟨⟨fun r ch => (hf.messages r ch).trans (hmessages r ch).symm, fun r ch => ?_, hf.one_side,
    hf.queued⟩, hf.size.trans hsize.symm, hf.severed, hf.ticket.trans hticket.symm, fun t' => ?_,
    hsound⟩
  · rw [hwaiters, ← hf.waiters, List.filter_filter]
    refine List.filter_congr fun t' _ => ?_
    rw [hheld]
    split
    · rename_i heq
      simp [heq]
    · rename_i hne
      simp [hne]
  · rw [Cluster.forget, Table.find?_erase]
    split
    · rename_i heq
      rw [Exchange.receipt, hheld, if_pos heq]
      rfl
    · rename_i hne
      rw [hf.receipts, hreceipts t' hne]

/-- There is nothing to give up. -/
theorem forget_unknown (hf : c.Follows e) (hheld : e.held t = none) : (c.forget t).Follows e := by
  refine ⟨⟨hf.messages, hf.waiters, hf.one_side, hf.queued⟩, hf.size, hf.severed, hf.ticket,
    fun t' => ?_, hf.sound⟩
  rw [Cluster.forget, Table.find?_erase]
  split
  · rename_i heq
    rw [heq, Exchange.receipt, hheld]
    rfl
  · exact hf.receipts t'

/-- A receive that does not wait is forgotten. -/
theorem collect (hf : c.Follows e) (ht : e.receipt t ≠ some .waiting) (hsome : (e.held t).isSome) :
    (c.forget t).Follows (e.release t) := by
  refine hf.forget rfl rfl (fun _ => Exchange.held_release) (fun _ _ => rfl) (fun r ch => ?_)
    (fun t' hne => by rw [Exchange.receipt_release, if_neg hne]) hf.sound.release
  refine (List.filter_eq_self.mpr fun t' hmem => decide_eq_true ?_).symm
  rintro rfl
  exact ht (hf.sound.receipt_eq_waiting_iff.mpr
    ⟨r, ch, hf.sound.held_of_mem_unserved hsome hmem, hmem⟩)

/-- A receive is given up on its channel. -/
theorem withdraw (hf : c.Follows e) (hheld : e.held t = some (r, ch)) :
    (c.forget t).Follows ((e.change r ch (·.withdraw t)).release t) := by
  have hparts := Round.withdraw_parts (t := t) (hf.sound.nodup r ch).of_append_left
  have hsub : ((e.pipes r ch).current.withdraw t).asked.Sublist (e.pipes r ch).current.asked := by
    rw [Round.withdraw]
    split
    · exact List.erase_sublist
    · exact List.Sublist.refl _
  refine hf.forget rfl rfl (fun _ => Exchange.held_release) (fun r' ch' => ?_) (fun r' ch' => ?_)
    (fun t' hne => ?_) (hf.sound.change (hsub.append (List.Sublist.refl _))).release
  · rw [Exchange.pipes_release]
    by_cases h : r' = r ∧ ch' = ch
    · obtain ⟨rfl, rfl⟩ := h
      rw [Exchange.change_self]
      exact hparts.2.2
    · rw [Exchange.change_other h]
  · rw [Exchange.pipes_release]
    by_cases h : r' = r ∧ ch' = ch
    · obtain ⟨rfl, rfl⟩ := h
      rw [Exchange.change_self]
      exact hparts.2.1
    · rw [Exchange.change_other h]
      refine (List.filter_eq_self.mpr fun t' hmem => decide_eq_true ?_).symm
      rintro rfl
      have hown := hf.sound.own r' ch' t' (Pipe.mem_asked_of_unserved hmem) _ hheld
      exact h ⟨(congrArg Prod.fst hown).symm, (congrArg Prod.snd hown).symm⟩
  · rw [Exchange.receipt_release, if_neg hne]
    exact Exchange.receipt_change fun _ => Pipe.receipt_withdraw (hf.sound.nodup r ch) hne

/-- The channels of a rank are emptied. -/
theorem retire (hf : c.Follows e) {rank : Rank} (range : TagRange) (hrank : rank < c.size) :
    (c.retire rank range).Follows (e.retire rank range) := by
  have hqueues := queues_retire hrank range
  refine ⟨⟨fun r ch => ?_, fun r ch => ?_, fun r ch => ?_, fun r ch t ht => ?_⟩, ?_, hf.severed,
    hf.ticket, fun t => ?_, hf.sound.retire rank range⟩
  · rw [(hqueues r ch).1, Exchange.retire]
    dsimp only
    split
    · rfl
    · exact hf.messages r ch
  · rw [(hqueues r ch).2, Exchange.retire]
    dsimp only
    split
    · rfl
    · exact hf.waiters r ch
  · rw [(hqueues r ch).1, (hqueues r ch).2]
    split
    · exact Or.inl rfl
    · exact hf.one_side r ch
  · rw [(hqueues r ch).2] at ht
    split at ht
    · cases ht
    · exact hf.queued r ch t ht
  · exact List.length_set.trans hf.size
  · -- a receive is closed if it waits on one of the channels
    have hdropped : ∀ x, x ∈ (c.mailboxes.getD rank {}).waiters.filter (fun x => range.contains x.1.tag) ↔
        x.2 ∈ c.waiters rank x.1 ∧ range.contains x.1.tag = true := by
      intro x
      rw [List.mem_filter, Cluster.waiters, mem_along]
    have hown : ∀ x ∈ (c.mailboxes.getD rank {}).waiters.filter (fun x => range.contains x.1.tag),
        c.receipts.find? x.2 = some .waiting → e.held x.2 = some (rank, x.1) := by
      intro x hx hwait
      rw [hdropped] at hx
      have hlive : (e.held x.2).isSome := by
        rw [← hf.live_eq hx.1, live, hwait]
        rfl
      exact hf.sound.held_of_mem_unserved hlive (hf.waiters rank x.1 ▸ List.mem_filter.mpr ⟨hx.1, hlive⟩)
    rw [Cluster.retire]
    dsimp only
    by_cases hwait : c.receipts.find? t = some .waiting
    · obtain ⟨r, ch, hheld, hmem⟩ := hf.sound.receipt_eq_waiting_iff.mp (hf.receipts t ▸ hwait)
      have hqueued : t ∈ c.waiters r ch := by
        rw [← hf.waiters] at hmem
        exact (List.mem_filter.mp hmem).1
      by_cases hcover : r = rank ∧ range.contains ch.tag = true
      · obtain ⟨rfl, hcover⟩ := hcover
        rw [Exchange.receipt_retire_self (hf.receipts t ▸ hwait) hheld hcover]
        refine find?_foldl_close hwait ((hdropped (ch, t)).mpr ⟨hqueued, hcover⟩) fun x hx ht => ?_
        have := hown x hx (ht ▸ hwait)
        rw [ht, hheld, Option.some.injEq, Prod.mk.injEq] at this
        exact this.2.symm
      · rw [find?_foldl_close_of_not, hf.receipts, Exchange.receipt_retire_of_not]
        · intro _ r' ch' hheld'
          rw [hheld, Option.some.injEq, Prod.mk.injEq] at hheld'
          exact hheld'.1 ▸ hheld'.2 ▸ hcover
        · intro x hx ht _
          have := hown x hx (ht ▸ hwait)
          rw [← ht, hheld, Option.some.injEq, Prod.mk.injEq] at this
          exact hcover ⟨this.1, this.2 ▸ ((hdropped x).mp hx).2⟩
    · rw [find?_foldl_close_of_not fun _ _ _ => hwait, hf.receipts, Exchange.receipt_retire_of_not]
      exact fun h => absurd (hf.receipts t ▸ h) hwait

/-- Whatever is done, the exchange answers the same, and the cluster goes on to follow it. -/
theorem act (hf : c.Follows e) (a : Action) (ha : a.AtHome c.size) :
    (c.act a).2 = (e.act a).2 ∧ (c.act a).1.Follows (e.act a).1 := by
  cases a with
  | send src dst tag payload =>
    rw [Cluster.act, Exchange.act, ← hf.size]
    by_cases hdst : dst < c.size
    · obtain ⟨c', hok, hf'⟩ := hf.send payload src tag hdst
      rw [hok, if_pos hdst]
      exact ⟨rfl, hf'⟩
    · have hnone : c.mailboxes[dst]? = none := List.getElem?_eq_none (Nat.le_of_not_lt hdst)
      rw [Cluster.send, hnone, if_neg hdst]
      exact ⟨rfl, hf⟩
  | receive rank src tag =>
    rw [Cluster.act, Exchange.act, ← hf.size]
    by_cases hsrc : src < c.size
    · obtain ⟨c', hok, hf'⟩ := hf.receive tag ha hsrc
      rw [hok, if_pos hsrc]
      exact ⟨rfl, hf'⟩
    · obtain ⟨c', hok, -, hf'⟩ := hf.receive_outside rank tag hsrc
      rw [hok, if_neg hsrc]
      exact ⟨rfl, hf'⟩
  | poll t =>
    rw [Cluster.act, Exchange.act, hf.receipts]
    have hheld : ∀ {x}, e.receipt t = some x → (e.held t).isSome := by
      intro x hx
      obtain ⟨o, ho, -⟩ := Option.map_eq_some_iff.mp hx
      rw [ho]
      rfl
    cases hx : e.receipt t with
    | none => exact ⟨rfl, hf⟩
    | some x =>
      cases x with
      | waiting => exact ⟨rfl, hf⟩
      | delivered payload => exact ⟨rfl, hf.collect (by rw [hx]; simp) (hheld hx)⟩
      | refused error => exact ⟨rfl, hf.collect (by rw [hx]; simp) (hheld hx)⟩
  | forget t =>
    rw [Cluster.act, Exchange.act]
    have hhas : c.receipts.has t = (e.held t).isSome := by
      rw [Table.has, hf.receipts, Exchange.receipt, Option.isSome_map]
    cases hheld : e.held t with
    | none =>
      rw [hheld] at hhas
      exact ⟨congrArg Answer.forgotten hhas, hf.forget_unknown hheld⟩
    | some o =>
      rw [hheld] at hhas
      exact ⟨congrArg Answer.forgotten hhas, hf.withdraw hheld⟩
  | retire rank range => exact ⟨rfl, hf.retire range ha⟩

/-- What does not concern a channel leaves alone what is queued on it. -/
theorem queues_unmoved (hf : c.Follows e) {a : Action} (ha : a.AtHome c.size)
    (hnot : ¬a.Concerns c.size r ch) :
    (c.act a).1.messages r ch = c.messages r ch ∧ (c.act a).1.waiters r ch = c.waiters r ch := by
  have hchanges : ∀ {c' dst ch' ms ws}, c.Changes c' dst ch' ms ws → ¬(r = dst ∧ ch = ch') →
      c'.messages r ch = c.messages r ch ∧ c'.waiters r ch = c.waiters r ch :=
    fun hch hne => ⟨hch.messages_other r ch hne, hch.waiters_other r ch hne⟩
  cases a with
  | send src dst tag payload =>
    rw [Cluster.act]
    by_cases hdst : dst < c.size
    · have hne : ¬(r = dst ∧ ch = ⟨src, tag⟩) := fun h => hnot ⟨h.1.symm, h.2.symm, hdst⟩
      have hs : (src, dst) ∉ c.severed := by
        rw [hf.severed]
        exact List.not_mem_nil
      rcases c.send_cases tag payload hdst hs with
        ⟨-, c', hok, -, -, hch⟩ | ⟨_, _, -, c', _, hok, -, -, -, -, hch⟩
      · rw [hok]
        exact hchanges hch hne
      · rw [hok]
        exact hchanges hch hne
    · rw [Cluster.send, List.getElem?_eq_none (Nat.le_of_not_lt hdst)]
      exact ⟨rfl, rfl⟩
  | receive rank src tag =>
    rw [Cluster.act]
    by_cases hsrc : src < c.size
    · have hne : ¬(r = rank ∧ ch = ⟨src, tag⟩) := fun h => hnot ⟨h.1.symm, h.2.symm, hsrc⟩
      cases hm : c.messages rank ⟨src, tag⟩ with
      | nil =>
        obtain ⟨c', hok, -, -, hch⟩ := receive_of_messages_nil ha hsrc hm
        rw [hok]
        exact hchanges hch hne
      | cons payload ps =>
        obtain ⟨c', hok, -, -, hch⟩ := receive_of_messages_cons ha hsrc hm
        rw [hok]
        exact hchanges hch hne
    · obtain ⟨c', hok, hboxes, -⟩ := hf.receive_outside rank tag hsrc
      rw [hok, messages, waiters, hboxes]
      exact ⟨rfl, rfl⟩
  | poll t =>
    rw [Cluster.act]
    split <;> exact ⟨rfl, rfl⟩
  | forget t => exact ⟨rfl, rfl⟩
  | retire rank range =>
    have hne : ¬(r = rank ∧ range.contains ch.tag = true) := fun h => hnot ⟨h.1.symm, h.2⟩
    have hqueues := queues_retire ha range r ch
    rwa [if_neg hne, if_neg hne] at hqueues

end Follows

end Cluster

/-! ## All histories -/

namespace Cluster

variable {c : Cluster} {e : Exchange}

/-- The mailboxes are as many separate channels.  Of what an operation does to a channel that it
does not concern, there is nothing: not to the messages that wait on it, not to the receives queued
there, dead ones included, and not to what has become of its receives. -/
structure Separate (c : Cluster) (e : Exchange) : Prop where
  messages : ∀ r ch, c.messages r ch = (e.pipes r ch).current.unclaimed
  waiters : ∀ r ch, (c.waiters r ch).filter c.live = (e.pipes r ch).current.unserved
  one_side : ∀ r ch, c.messages r ch = [] ∨ c.waiters r ch = []
  unmoved : ∀ (a : Action) r ch, a.AtHome c.size → ¬a.Concerns c.size r ch →
    (c.act a).1.messages r ch = c.messages r ch ∧ (c.act a).1.waiters r ch = c.waiters r ch ∧
      ∀ t, e.held t = some (r, ch) → a ≠ .poll t → a ≠ .forget t →
        (c.act a).1.receipts.find? t = c.receipts.find? t

theorem Follows.separate (hf : c.Follows e) : c.Separate e := by
  refine ⟨hf.messages, hf.filter_live, hf.one_side, fun a r ch ha hnot => ?_⟩
  obtain ⟨hmessages, hwaiters⟩ := hf.queues_unmoved ha hnot
  refine ⟨hmessages, hwaiters, fun t hheld hpoll hforget => ?_⟩
  rw [(hf.act a ha).2.receipts, hf.receipts]
  exact hf.sound.receipt_unmoved hheld (hf.size ▸ hnot) hpoll hforget

/-- A cluster follows its exchange through every history, with the same answers. -/
theorem Follows.after (hf : c.Follows e) (as : List Action) (has : ∀ a ∈ as, a.AtHome c.size) :
    c.answers as = e.answers as ∧ (c.after as).Follows (e.after as) := by
  induction as generalizing c e with
  | nil => exact ⟨rfl, hf⟩
  | cons a as ih =>
    obtain ⟨hanswer, hf'⟩ := hf.act a (has a List.mem_cons_self)
    have hsize : (c.act a).1.size = c.size := by
      rw [hf'.size, Exchange.size_act, hf.size]
    obtain ⟨hanswers, hf''⟩ := ih hf' fun b hb => hsize ▸ has b (List.mem_cons_of_mem _ hb)
    refine ⟨?_, hf''⟩
    rw [answers, Exchange.answers, hanswer, hanswers]

/-- Whatever is sent, received, polled, given up and retired, every answer is that of a world in
which each destination, source and tag has a channel of its own, and the mailboxes hold just what is
left over on these channels. -/
theorem answers_of_exchange (n : Nat) (as : List Action) (has : ∀ a ∈ as, a.AtHome n) :
    (ofSize n).answers as = (Exchange.ofSize n).answers as ∧
      ((ofSize n).after as).Separate ((Exchange.ofSize n).after as) := by
  have hsize : (ofSize n).size = n := List.length_replicate
  obtain ⟨hanswers, hf⟩ := (follows_ofSize n).after as fun a ha => hsize.symm ▸ has a ha
  exact ⟨hanswers, hf.separate⟩

/-- The second of three receives is given up before its message has come, and the first after: the
third message finds no receive, and is gone when the channel is emptied. -/
def lateAndEarlyWithdrawal : List Action :=
  [.receive 1 0 ⟨5⟩, .receive 1 0 ⟨5⟩, .receive 1 0 ⟨5⟩, .forget 1, .send 0 1 ⟨5⟩ [10], .forget 0,
    .send 0 1 ⟨5⟩ [11], .send 0 1 ⟨5⟩ [12], .send 0 2 ⟨5⟩ [13], .receive 1 3 ⟨5⟩,
    .retire 1 ⟨⟨5⟩, ⟨6⟩⟩, .receive 1 0 ⟨5⟩, .poll 2, .poll 3, .poll 4]

theorem answers_of_exchange_of_withdrawal :
    (∀ a ∈ lateAndEarlyWithdrawal, a.AtHome 2) ∧
      (ofSize 2).answers lateAndEarlyWithdrawal =
        [.made 0, .made 1, .made 2, .forgotten true, .done, .forgotten true, .done, .done,
          .failed (.noSuchRank 2 2), .made 3, .done, .made 4, .received [11],
          .failed (.noSuchRank 3 2), .pending] ∧
      ((ofSize 2).after lateAndEarlyWithdrawal).Separate
        ((Exchange.ofSize 2).after lateAndEarlyWithdrawal) := by
  obtain ⟨hanswers, hseparate⟩ := answers_of_exchange 2 lateAndEarlyWithdrawal (by decide)
  exact ⟨by decide, hanswers.trans (by decide), hseparate⟩

end Cluster

end TiledTensor

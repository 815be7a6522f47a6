import TiledTensor.Cluster

/-!
# Channels

What sending and receiving do, channel by channel.  The messages of a channel that wait at a rank
and the receives of the channel that wait there are two queues, at most one of which is in use; an
operation on one channel leaves all others alone.
-/

namespace TiledTensor

section

variable {κ β : Type} [DecidableEq κ] {k k' : κ} {es : List (κ × β)} {b : β}

/-- The entries under one key, in order. -/
def along (k : κ) (es : List (κ × β)) : List β :=
  es.filterMap fun e => if e.1 = k then some e.2 else none

theorem along_append (es fs : List (κ × β)) : along k (es ++ fs) = along k es ++ along k fs :=
  List.filterMap_append

@[simp] theorem along_nil : along k ([] : List (κ × β)) = [] := rfl

@[simp] theorem along_cons_self : along k ((k, b) :: es) = b :: along k es := by
  unfold along
  rw [List.filterMap_cons]
  dsimp only
  rw [if_pos rfl]

@[simp] theorem along_cons_of_ne (h : k' ≠ k) : along k ((k', b) :: es) = along k es := by
  unfold along
  rw [List.filterMap_cons, if_neg h]

/-- An entry is added under its key. -/
theorem along_append_singleton_self : along k (es ++ [(k, b)]) = along k es ++ [b] := by
  rw [along_append, along_cons_self, along_nil]

theorem along_append_singleton_of_ne (h : k' ≠ k) : along k (es ++ [(k', b)]) = along k es := by
  rw [along_append, along_cons_of_ne h, along_nil, List.append_nil]

theorem mem_along {es : List (κ × β)} : b ∈ along k es ↔ (k, b) ∈ es := by
  rw [along, List.mem_filterMap]
  constructor
  · rintro ⟨⟨k', b'⟩, he, h⟩
    obtain ⟨hk, hb⟩ := Option.ite_none_right_eq_some.mp h
    cases hk
    cases hb
    exact he
  · exact fun h => ⟨(k, b), h, if_pos rfl⟩

/-- Where entries are dropped by their key, a key keeps all its entries or none. -/
theorem along_filter_key (f : κ → Bool) :
    along k (es.filter fun e => f e.1) = if f k then along k es else [] := by
  induction es with
  | nil => split <;> rfl
  | cons e es ih =>
    obtain ⟨k', b⟩ := e
    by_cases hk : k' = k
    · subst hk
      by_cases hf : f k' = true
      · rw [if_pos hf] at ih ⊢
        rw [List.filter_cons_of_pos (by exact hf), along_cons_self, along_cons_self, ih]
      · rw [if_neg hf] at ih ⊢
        rw [List.filter_cons_of_neg (by exact hf), ih]
    · rw [along_cons_of_ne hk, ← ih]
      by_cases hf : f k' = true
      · rw [List.filter_cons_of_pos (by exact hf), along_cons_of_ne hk]
      · rw [List.filter_cons_of_neg (by exact hf)]

/-- Only an empty list has nothing under any key. -/
theorem eq_nil_of_along (h : ∀ k, along k es = []) : es = [] := by
  cases es with
  | nil => rfl
  | cons e es =>
    obtain ⟨k, b⟩ := e
    have := h k
    rw [along_cons_self] at this
    cases this

end

namespace Mailbox

variable {β : Type} {ch ch' : Channel} {es rest : List (Channel × β)} {b : β}

theorem oldest_of_along_nil (h : along ch es = []) : oldest ch es = none := by
  induction es with
  | nil => rfl
  | cons e es ih =>
    obtain ⟨ch', b⟩ := e
    by_cases he : ch' = ch
    · rw [he, along_cons_self] at h
      cases h
    · rw [along_cons_of_ne he] at h
      rw [oldest, if_neg he, ih h]
      rfl

/-- The oldest entry of a channel is taken out. -/
theorem oldest_of_along_cons {bs : List β} (h : along ch es = b :: bs) :
    ∃ rest, oldest ch es = some (b, rest) ∧ along ch rest = bs ∧
      ∀ ch' ≠ ch, along ch' rest = along ch' es := by
  induction es with
  | nil => cases h
  | cons e es ih =>
    obtain ⟨ch₀, b₀⟩ := e
    by_cases he : ch₀ = ch
    · subst he
      rw [along_cons_self, List.cons.injEq] at h
      obtain ⟨rfl, rfl⟩ := h
      refine ⟨es, by rw [oldest, if_pos rfl], rfl, ?_⟩
      intro ch' hne
      rw [along_cons_of_ne (Ne.symm hne)]
    · rw [along_cons_of_ne he] at h
      obtain ⟨rest, hold, hrest, hother⟩ := ih h
      refine ⟨(ch₀, b₀) :: rest, ?_, ?_, ?_⟩
      · rw [oldest, if_neg he, hold]
        rfl
      · rw [along_cons_of_ne he, hrest]
      · intro ch' hne
        by_cases h₀ : ch₀ = ch'
        · subst h₀
          rw [along_cons_self, along_cons_self, hother _ hne]
        · rw [along_cons_of_ne h₀, along_cons_of_ne h₀, hother _ hne]

variable {live : Ticket → Bool} {ts : List (Channel × Ticket)} {t : Ticket}

theorem serve_of_along_nil (h : along ch ts = []) : serve live ch ts = (none, ts) := by
  induction ts with
  | nil => rfl
  | cons e ts ih =>
    obtain ⟨ch', t⟩ := e
    by_cases he : ch' = ch
    · rw [he, along_cons_self] at h
      cases h
    · rw [along_cons_of_ne he] at h
      rw [serve, if_neg he, ih h]

/-- A live receive that is the oldest of its channel is taken out. -/
theorem serve_of_along_cons {tail : List Ticket} (h : along ch ts = t :: tail)
    (hlive : live t = true) :
    ∃ rest, serve live ch ts = (some t, rest) ∧ along ch rest = tail ∧
      ∀ ch' ≠ ch, along ch' rest = along ch' ts := by
  induction ts with
  | nil => cases h
  | cons e ts ih =>
    obtain ⟨ch₀, t₀⟩ := e
    by_cases he : ch₀ = ch
    · subst he
      rw [along_cons_self, List.cons.injEq] at h
      obtain ⟨rfl, rfl⟩ := h
      refine ⟨ts, by rw [serve, if_pos rfl, if_pos hlive], rfl, ?_⟩
      intro ch' hne
      rw [along_cons_of_ne (Ne.symm hne)]
    · rw [along_cons_of_ne he] at h
      obtain ⟨rest, hserve, hrest, hother⟩ := ih h
      refine ⟨(ch₀, t₀) :: rest, ?_, ?_, ?_⟩
      · rw [serve, if_neg he, hserve]
      · rw [along_cons_of_ne he, hrest]
      · intro ch' hne
        by_cases h₀ : ch₀ = ch'
        · subst h₀
          rw [along_cons_self, along_cons_self, hother _ hne]
        · rw [along_cons_of_ne h₀, along_cons_of_ne h₀, hother _ hne]

/-- Serving a channel takes out its oldest live receive, with the dead ones before it. -/
theorem serve_spec (live : Ticket → Bool) (ch : Channel) (ts : List (Channel × Ticket)) :
    (serve live ch ts).1 = ((along ch ts).filter live).head? ∧
      (along ch (serve live ch ts).2).filter live = ((along ch ts).filter live).tail ∧
      ((serve live ch ts).1 = none → along ch (serve live ch ts).2 = []) ∧
      (along ch (serve live ch ts).2).Sublist (along ch ts) ∧
      ∀ ch' ≠ ch, along ch' (serve live ch ts).2 = along ch' ts := by
  induction ts with
  | nil => exact ⟨rfl, rfl, fun _ => rfl, List.Sublist.refl _, fun _ _ => rfl⟩
  | cons e ts ih =>
    obtain ⟨ch₀, t₀⟩ := e
    obtain ⟨hfound, hrest, hnone, hsub, hother⟩ := ih
    by_cases he : ch₀ = ch
    · subst he
      rw [along_cons_self, serve, if_pos rfl]
      by_cases hlive : live t₀ = true
      · rw [if_pos hlive, List.filter_cons_of_pos hlive]
        exact ⟨rfl, rfl, fun h => by simp at h, List.sublist_cons_self _ _,
          fun ch' hne => (along_cons_of_ne hne.symm).symm⟩
      · rw [if_neg hlive, List.filter_cons_of_neg hlive]
        exact ⟨hfound, hrest, hnone, hsub.cons _,
          fun ch' hne => (hother ch' hne).trans (along_cons_of_ne hne.symm).symm⟩
    · rw [along_cons_of_ne he, serve, if_neg he]
      dsimp only
      rw [along_cons_of_ne he]
      refine ⟨hfound, hrest, hnone, hsub, fun ch' hne => ?_⟩
      by_cases h₀ : ch₀ = ch'
      · subst h₀
        rw [along_cons_self, along_cons_self, hother _ hne]
      · rw [along_cons_of_ne h₀, along_cons_of_ne h₀, hother _ hne]

end Mailbox

namespace Cluster

variable {c : Cluster} {src dst rank : Rank} {tag : Tag} {payload : Payload} {ch : Channel} {r : Rank}

/-- The messages of a channel that wait at a rank. -/
def messages (c : Cluster) (r : Rank) (ch : Channel) : List Payload :=
  along ch (c.mailboxes.getD r {}).messages

/-- The receives of a channel that wait at a rank. -/
def waiters (c : Cluster) (r : Rank) (ch : Channel) : List Ticket :=
  along ch (c.mailboxes.getD r {}).waiters

/-- A mailbox is empty if all its channels are. -/
theorem mailbox_eq_empty (hm : ∀ ch, c.messages r ch = []) (hw : ∀ ch, c.waiters r ch = []) :
    c.mailboxes.getD r {} = {} := by
  have hmessages := eq_nil_of_along hm
  have hwaiters := eq_nil_of_along hw
  generalize c.mailboxes.getD r {} = box at hmessages hwaiters
  cases box
  simp_all

/-- One channel at one rank holds other messages and other receives than before. -/
structure Changes (c c' : Cluster) (dst : Rank) (ch : Channel) (messages : List Payload)
    (waiters : List Ticket) : Prop where
  size : c'.size = c.size
  severed : c'.severed = c.severed
  messages_self : c'.messages dst ch = messages
  waiters_self : c'.waiters dst ch = waiters
  messages_other : ∀ r ch', ¬(r = dst ∧ ch' = ch) → c'.messages r ch' = c.messages r ch'
  waiters_other : ∀ r ch', ¬(r = dst ∧ ch' = ch) → c'.waiters r ch' = c.waiters r ch'

/-- A mailbox is exchanged. -/
theorem changes_set (ch : Channel) (box : Mailbox) (receipts : Table Ticket Receipt)
    (next : Ticket) (hdst : dst < c.size)
    (hm : ∀ ch' ≠ ch, along ch' box.messages = c.messages dst ch')
    (hw : ∀ ch' ≠ ch, along ch' box.waiters = c.waiters dst ch') :
    c.Changes { c with mailboxes := c.mailboxes.set dst box, receipts, nextTicket := next } dst ch
      (along ch box.messages) (along ch box.waiters) := by
  have hself : (c.mailboxes.set dst box).getD dst {} = box := by
    rw [List.getD_eq_getElem?_getD, List.getElem?_set_self hdst]
    rfl
  have hother : ∀ r ≠ dst, (c.mailboxes.set dst box).getD r {} = c.mailboxes.getD r {} := by
    intro r hr
    rw [List.getD_eq_getElem?_getD, List.getElem?_set_ne (Ne.symm hr), ← List.getD_eq_getElem?_getD]
  refine ⟨?_, rfl, ?_, ?_, ?_, ?_⟩
  · simp [size]
  · rw [messages, hself]
  · rw [waiters, hself]
  · intro r ch' hne
    by_cases hr : r = dst
    · subst hr
      rw [messages, hself, hm ch' fun hch => hne ⟨rfl, hch⟩]
    · rw [messages, hother r hr, messages]
  · intro r ch' hne
    by_cases hr : r = dst
    · subst hr
      rw [waiters, hself, hw ch' fun hch => hne ⟨rfl, hch⟩]
    · rw [waiters, hother r hr, waiters]

theorem getElem?_mailboxes (hdst : dst < c.size) :
    c.mailboxes[dst]? = some (c.mailboxes.getD dst {}) := by
  rw [List.getD_eq_getElem?_getD, List.getElem?_eq_getElem hdst]
  rfl

/-- A message for which nobody waits is kept. -/
theorem send_of_waiters_nil (payload : Payload) (hdst : dst < c.size) (hs : (src, dst) ∉ c.severed)
    (hw : c.waiters dst ⟨src, tag⟩ = []) :
    ∃ c', c.send src dst tag payload = .ok c' ∧ c'.receipts = c.receipts ∧
      c'.nextTicket = c.nextTicket ∧
      c.Changes c' dst ⟨src, tag⟩ (c.messages dst ⟨src, tag⟩ ++ [payload]) [] := by
  have hserve : Mailbox.serve c.live ⟨src, tag⟩ (c.mailboxes.getD dst {}).waiters =
      (none, (c.mailboxes.getD dst {}).waiters) := Mailbox.serve_of_along_nil hw
  unfold send
  rw [getElem?_mailboxes hdst]
  dsimp only
  rw [if_neg hs, hserve]
  refine ⟨_, rfl, rfl, rfl, ?_⟩
  have hch := changes_set ⟨src, tag⟩ ⟨(c.mailboxes.getD dst {}).messages ++ [(⟨src, tag⟩, payload)],
    (c.mailboxes.getD dst {}).waiters⟩ c.receipts c.nextTicket hdst ?_ fun _ _ => rfl
  · rw [along_append_singleton_self] at hch
    exact hw ▸ hch
  · intro ch' hne
    rw [along_append_singleton_of_ne (Ne.symm hne)]
    rfl

/-- A message goes to the oldest receive that waits for it. -/
theorem send_of_waiters_cons (payload : Payload) {t : Ticket} {ts : List Ticket} (hdst : dst < c.size)
    (hs : (src, dst) ∉ c.severed) (hw : c.waiters dst ⟨src, tag⟩ = t :: ts)
    (hlive : c.receipts.find? t = some .waiting) :
    ∃ c', c.send src dst tag payload = .ok c' ∧
      c'.receipts = c.receipts.put t (.delivered payload) ∧ c'.nextTicket = c.nextTicket ∧
      c.Changes c' dst ⟨src, tag⟩ (c.messages dst ⟨src, tag⟩) ts := by
  obtain ⟨rest, hserve, hrest, hother⟩ :=
    Mailbox.serve_of_along_cons hw (show c.live t = true by simp [live, hlive])
  unfold send
  rw [getElem?_mailboxes hdst]
  dsimp only
  rw [if_neg hs, hserve]
  refine ⟨_, rfl, rfl, rfl, ?_⟩
  exact hrest ▸ changes_set ⟨src, tag⟩ ⟨(c.mailboxes.getD dst {}).messages, rest⟩ _ _ hdst
    (fun _ _ => rfl) hother

/-- A message goes to the oldest live receive, or is kept if there is none.  The dead receives that
were before it are dropped. -/
theorem send_cases (tag : Tag) (payload : Payload) (hdst : dst < c.size) (hs : (src, dst) ∉ c.severed) :
    (c.waiters dst ⟨src, tag⟩).filter c.live = [] ∧
      (∃ c', c.send src dst tag payload = .ok c' ∧ c'.receipts = c.receipts ∧
        c'.nextTicket = c.nextTicket ∧
        c.Changes c' dst ⟨src, tag⟩ (c.messages dst ⟨src, tag⟩ ++ [payload]) []) ∨
    ∃ t ts, (c.waiters dst ⟨src, tag⟩).filter c.live = t :: ts ∧
      ∃ c' rest, c.send src dst tag payload = .ok c' ∧
        c'.receipts = c.receipts.put t (.delivered payload) ∧ c'.nextTicket = c.nextTicket ∧
        rest.filter c.live = ts ∧ rest.Sublist (c.waiters dst ⟨src, tag⟩) ∧
        c.Changes c' dst ⟨src, tag⟩ (c.messages dst ⟨src, tag⟩) rest := by
  obtain ⟨hfound, hrest, hnone, hsub, hother⟩ :=
    Mailbox.serve_spec c.live ⟨src, tag⟩ (c.mailboxes.getD dst {}).waiters
  unfold send
  rw [getElem?_mailboxes hdst]
  dsimp only
  rw [if_neg hs]
  generalize Mailbox.serve c.live ⟨src, tag⟩ (c.mailboxes.getD dst {}).waiters = served at *
  obtain ⟨found, rest⟩ := served
  cases found with
  | none =>
    refine Or.inl ⟨List.head?_eq_none_iff.mp hfound.symm, _, rfl, rfl, rfl, ?_⟩
    have hch := changes_set ⟨src, tag⟩
      ⟨(c.mailboxes.getD dst {}).messages ++ [(⟨src, tag⟩, payload)], rest⟩ c.receipts c.nextTicket
      hdst ?_ hother
    · rw [along_append_singleton_self, hnone rfl] at hch
      exact hch
    · exact fun ch' hne => along_append_singleton_of_ne hne.symm
  | some t =>
    obtain ⟨ts, hts⟩ := List.head?_eq_some_iff.mp hfound.symm
    rw [hts, List.tail_cons] at hrest
    refine Or.inr ⟨t, ts, hts, ?_⟩
    exact ⟨_, along ⟨src, tag⟩ rest, rfl, rfl, rfl, hrest, hsub,
      changes_set ⟨src, tag⟩ ⟨(c.mailboxes.getD dst {}).messages, rest⟩ _ _ hdst (fun _ _ => rfl)
        hother⟩

/-- Receives are numbered. -/
theorem receive_snd : (c.receive rank src tag).2 = c.nextTicket := by
  unfold receive
  dsimp only
  split
  · split <;> rfl
  · rfl

/-- A receive for which no message waits is queued. -/
theorem receive_of_messages_nil (hrank : rank < c.size) (hsrc : src < c.size)
    (hm : c.messages rank ⟨src, tag⟩ = []) :
    ∃ c', c.receive rank src tag = (c', c.nextTicket) ∧
      c'.receipts = c.receipts.put c.nextTicket .waiting ∧ c'.nextTicket = c.nextTicket + 1 ∧
      c.Changes c' rank ⟨src, tag⟩ [] (c.waiters rank ⟨src, tag⟩ ++ [c.nextTicket]) := by
  have hold : Mailbox.oldest ⟨src, tag⟩ (c.mailboxes.getD rank {}).messages = none :=
    Mailbox.oldest_of_along_nil hm
  unfold receive
  dsimp only
  rw [if_pos hsrc, hold]
  refine ⟨_, rfl, rfl, rfl, ?_⟩
  have hch := changes_set ⟨src, tag⟩ ⟨(c.mailboxes.getD rank {}).messages,
    (c.mailboxes.getD rank {}).waiters ++ [(⟨src, tag⟩, c.nextTicket)]⟩
    (c.receipts.put c.nextTicket .waiting) (c.nextTicket + 1) hrank (fun _ _ => rfl) ?_
  · rw [along_append_singleton_self] at hch
    exact hm ▸ hch
  · intro ch' hne
    rw [along_append_singleton_of_ne (Ne.symm hne)]
    rfl

/-- A receive takes the oldest message that waits for it. -/
theorem receive_of_messages_cons {p : Payload} {ps : List Payload} (hrank : rank < c.size)
    (hsrc : src < c.size) (hm : c.messages rank ⟨src, tag⟩ = p :: ps) :
    ∃ c', c.receive rank src tag = (c', c.nextTicket) ∧
      c'.receipts = c.receipts.put c.nextTicket (.delivered p) ∧
      c'.nextTicket = c.nextTicket + 1 ∧
      c.Changes c' rank ⟨src, tag⟩ ps (c.waiters rank ⟨src, tag⟩) := by
  obtain ⟨rest, hold, hrest, hother⟩ := Mailbox.oldest_of_along_cons hm
  unfold receive
  dsimp only
  rw [if_pos hsrc, hold]
  refine ⟨_, rfl, rfl, rfl, ?_⟩
  exact hrest ▸ changes_set ⟨src, tag⟩ ⟨rest, (c.mailboxes.getD rank {}).waiters⟩ _ _ hrank
    hother fun _ _ => rfl

/-! ## Retirement -/

/-- Retiring a range empties the channels of the rank that have their tag in it. -/
theorem queues_retire (hrank : rank < c.size) (range : TagRange) (r : Rank) (ch : Channel) :
    (c.retire rank range).messages r ch =
        (if r = rank ∧ range.contains ch.tag = true then [] else c.messages r ch) ∧
      (c.retire rank range).waiters r ch =
        (if r = rank ∧ range.contains ch.tag = true then [] else c.waiters r ch) := by
  by_cases hr : r = rank
  · subst hr
    have hself : ∀ box, (c.mailboxes.set r box).getD r {} = box := fun box => by
      rw [List.getD_eq_getElem?_getD, List.getElem?_set_self hrank]
      rfl
    rw [messages, waiters, retire]
    dsimp only
    rw [hself]
    dsimp only
    rw [along_filter_key fun ch : Channel => !range.contains ch.tag,
      along_filter_key fun ch : Channel => !range.contains ch.tag]
    by_cases hcover : range.contains ch.tag = true <;> simp [hcover, messages, waiters]
  · have hother : ∀ box, (c.mailboxes.set rank box).getD r {} = c.mailboxes.getD r {} := fun box => by
      rw [List.getD_eq_getElem?_getD, List.getElem?_set_ne (Ne.symm hr), ← List.getD_eq_getElem?_getD]
    rw [messages, waiters, retire, if_neg fun h => hr h.1, if_neg fun h => hr h.1]
    dsimp only
    rw [hother]
    exact ⟨rfl, rfl⟩

variable {es : List (Channel × Ticket)} {receipts : Table Ticket Receipt} {t : Ticket}

theorem find?_close (receipts : Table Ticket Receipt) (e : Channel × Ticket) (t : Ticket) :
    (close receipts e).find? t =
      if t = e.2 ∧ receipts.find? t = some .waiting then some (.refused (.closed e.1.source e.1.tag))
      else receipts.find? t := by
  rw [close, Table.find?_adjust]
  by_cases ht : t = e.2
  · rw [if_pos ht]
    cases receipts.find? t with
    | none => simp
    | some r => cases r <;> simp [ht]
  · rw [if_neg ht, if_neg fun h => ht h.1]

/-- A receive that does not wait, or is not among them, is not closed. -/
theorem find?_foldl_close_of_not (h : ∀ e ∈ es, t = e.2 → receipts.find? t ≠ some .waiting) :
    (es.foldl close receipts).find? t = receipts.find? t := by
  induction es generalizing receipts with
  | nil => rfl
  | cons e es ih =>
    have hhead : (close receipts e).find? t = receipts.find? t := by
      rw [find?_close, if_neg fun hc => h e List.mem_cons_self hc.1 hc.2]
    rw [List.foldl_cons, ih, hhead]
    intro e' he' ht
    rw [hhead]
    exact h e' (List.mem_cons_of_mem _ he') ht

/-- A receive that waits is closed on its channel. -/
theorem find?_foldl_close (h : receipts.find? t = some .waiting) (hmem : (ch, t) ∈ es)
    (honly : ∀ e ∈ es, e.2 = t → e.1 = ch) :
    (es.foldl close receipts).find? t = some (.refused (.closed ch.source ch.tag)) := by
  induction es generalizing receipts with
  | nil => cases hmem
  | cons e es ih =>
    rw [List.foldl_cons]
    by_cases ht : t = e.2
    · have hch : e.1 = ch := honly e List.mem_cons_self ht.symm
      have hclosed : (close receipts e).find? t = some (.refused (.closed ch.source ch.tag)) := by
        rw [find?_close, if_pos ⟨ht, h⟩, hch]
      rw [find?_foldl_close_of_not, hclosed]
      intro _ _ _
      simp [hclosed]
    · have hstill : (close receipts e).find? t = some .waiting := by
        rw [find?_close, if_neg fun hc => ht hc.1, h]
      refine ih hstill ?_ fun e' he' => honly e' (List.mem_cons_of_mem _ he')
      refine (List.mem_cons.mp hmem).resolve_left fun he => ht ?_
      rw [← he]

end Cluster

end TiledTensor

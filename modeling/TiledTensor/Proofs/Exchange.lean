import Mathlib.Data.List.Nodup
import TiledTensor.Proofs.Channels

/-!
# Mailboxes as separate channels

An exchange is what the mailboxes of a cluster stand for: one queue of messages and one of receives
for each destination, source and tag, the `j`th message for the `j`th receive, and no channel that
knows of another.  A receive that is given up before its message has come is struck out, so that it
was never made; a channel that is emptied begins anew.

An exchange remembers all that has passed.  What has become of a receive is read off its channel,
and no operation on another channel changes it: `Exchange.Sound.receipt_unmoved`.
-/

namespace TiledTensor

/-- What has passed on a channel since it was last emptied, oldest first.  The `j`th message goes to
the `j`th receive. -/
structure Round where
  sent : List Payload := []
  asked : List Ticket := []

namespace Round

/-- The receives that have their message, each with it. -/
def served (r : Round) : Table Ticket Payload := r.asked.zip r.sent

def unserved (r : Round) : List Ticket := r.asked.drop r.sent.length

def unclaimed (r : Round) : List Payload := r.sent.drop r.asked.length

def send (r : Round) (payload : Payload) : Round := { r with sent := r.sent ++ [payload] }

def ask (r : Round) (t : Ticket) : Round := { r with asked := r.asked ++ [t] }

/-- Strikes out a receive that has no message.  One that has its message keeps its place. -/
def withdraw (r : Round) (t : Ticket) : Round :=
  if t ∈ r.unserved then { r with asked := r.asked.erase t } else r

end Round

/-- One channel on its own: what has passed on it since it was last emptied, and what passed
before. -/
structure Pipe where
  current : Round := {}
  past : List Round := []

namespace Pipe

def rounds (p : Pipe) : List Round := p.current :: p.past

/-- All receives of the channel, but for those that were struck out. -/
def asked (p : Pipe) : List Ticket := p.rounds.flatMap (·.asked)

def send (p : Pipe) (payload : Payload) : Pipe := { p with current := p.current.send payload }

def ask (p : Pipe) (t : Ticket) : Pipe := { p with current := p.current.ask t }

def withdraw (p : Pipe) (t : Ticket) : Pipe := { p with current := p.current.withdraw t }

/-- Begins anew. -/
def retire (p : Pipe) : Pipe := ⟨{}, p.rounds⟩

/-- The message of a receive of the channel. -/
def message? (p : Pipe) (t : Ticket) : Option Payload := p.rounds.findSome? fun r => r.served.find? t

/-- What has become of a receive of the channel.  One that is neither served nor waits was there
when the channel was emptied. -/
def receipt (p : Pipe) (ch : Channel) (t : Ticket) : Receipt :=
  match p.message? t with
  | some payload => .delivered payload
  | none => if t ∈ p.current.asked then .waiting else .refused (.closed ch.source ch.tag)

end Pipe

/-- A world of ranks with a separate channel for each destination, source and tag. -/
structure Exchange where
  size : Nat
  pipes : Rank → Channel → Pipe := fun _ _ => {}
  /-- The rank and the channel of each receive that has not been given up or collected. -/
  held : Ticket → Option (Rank × Channel) := fun _ => none
  nextTicket : Ticket := 0

namespace Exchange

def ofSize (n : Nat) : Exchange := { size := n }

/-- What has become of a receive. -/
def receipt (e : Exchange) (t : Ticket) : Option Receipt :=
  (e.held t).map fun o =>
    if o.2.source < e.size then (e.pipes o.1 o.2).receipt o.2 t
    else .refused (.noSuchRank o.2.source e.size)

/-- Something happens on one channel. -/
def change (e : Exchange) (r : Rank) (ch : Channel) (f : Pipe → Pipe) : Exchange :=
  { e with pipes := fun r' ch' => if r' = r ∧ ch' = ch then f (e.pipes r' ch') else e.pipes r' ch' }

def release (e : Exchange) (t : Ticket) : Exchange :=
  { e with held := fun t' => if t' = t then none else e.held t' }

/-- A new receive on a channel of a rank. -/
def hold (e : Exchange) (r : Rank) (ch : Channel) : Exchange :=
  { e with
    held := fun t' => if t' = e.nextTicket then some (r, ch) else e.held t'
    nextTicket := e.nextTicket + 1 }

/-- Empties the channels of a rank whose tag lies in the range. -/
def retire (e : Exchange) (rank : Rank) (range : TagRange) : Exchange :=
  { e with pipes := fun r ch =>
      if r = rank ∧ range.contains ch.tag = true then (e.pipes r ch).retire else e.pipes r ch }

/-- Performs one operation of the cluster. -/
def act (e : Exchange) : Cluster.Action → Exchange × Cluster.Answer
  | .send src dst tag payload =>
    if dst < e.size then (e.change dst ⟨src, tag⟩ (·.send payload), .done)
    else (e, .failed (.noSuchRank dst e.size))
  | .receive rank src tag =>
    if src < e.size then
      ((e.change rank ⟨src, tag⟩ (·.ask e.nextTicket)).hold rank ⟨src, tag⟩, .made e.nextTicket)
    else (e.hold rank ⟨src, tag⟩, .made e.nextTicket)
  | .poll t =>
    match e.receipt t with
    | none => (e, .gone)
    | some .waiting => (e, .pending)
    | some (.delivered payload) => (e.release t, .received payload)
    | some (.refused error) => (e.release t, .failed error)
  | .forget t =>
    match e.held t with
    | none => (e, .forgotten false)
    | some (r, ch) => ((e.change r ch (·.withdraw t)).release t, .forgotten true)
  | .retire rank range => (e.retire rank range, .done)

/-- The exchange after some operations. -/
def after (e : Exchange) (as : List Cluster.Action) : Exchange := as.foldl (fun e a => (e.act a).1) e

/-- What some operations are answered. -/
def answers (e : Exchange) : List Cluster.Action → List Cluster.Answer
  | [] => []
  | a :: as => (e.act a).2 :: (e.act a).1.answers as

end Exchange

namespace Cluster

/-- The cluster after some operations. -/
def after (c : Cluster) (as : List Action) : Cluster := as.foldl (fun c a => (c.act a).1) c

/-- What some operations are answered. -/
def answers (c : Cluster) : List Action → List Answer
  | [] => []
  | a :: as => (c.act a).2 :: (c.act a).1.answers as

/-- Receives and retirements are made at a mailbox of the world. -/
def Action.AtHome (n : Nat) : Action → Prop
  | .receive rank _ _ => rank < n
  | .retire rank _ => rank < n
  | _ => True

instance (n : Nat) : DecidablePred (Action.AtHome n)
  | .receive rank _ _ => inferInstanceAs (Decidable (rank < n))
  | .retire rank _ => inferInstanceAs (Decidable (rank < n))
  | .send .. | .poll _ | .forget _ => isTrue trivial

/-- The operation is a message or a receive on the channel, or empties it.  What names a rank
outside the world is neither. -/
def Action.Concerns (n : Nat) (r : Rank) (ch : Channel) : Action → Prop
  | .send src dst tag _ => dst = r ∧ ⟨src, tag⟩ = ch ∧ dst < n
  | .receive rank src tag => rank = r ∧ ⟨src, tag⟩ = ch ∧ src < n
  | .retire rank range => rank = r ∧ range.contains ch.tag = true
  | _ => False

end Cluster

/-! ## One channel -/

namespace Round

variable {r : Round} {payload : Payload} {t t' : Ticket}

/-- A channel has messages that wait or receives that wait. -/
theorem unclaimed_eq_nil_or (r : Round) : r.unclaimed = [] ∨ r.unserved = [] := by
  rcases Nat.le_total r.sent.length r.asked.length with h | h
  · exact Or.inl (List.drop_eq_nil_of_le h)
  · exact Or.inr (List.drop_eq_nil_of_le h)

/-- A channel is known by its pairs and by what is left over on one side. -/
theorem of_parts {ks vs} (ts : List Ticket) (ms : List Payload) (hl : ks.length = vs.length)
    (h : ms = [] ∨ ts = []) :
    (⟨vs ++ ms, ks ++ ts⟩ : Round).served = ks.zip vs ∧
      (⟨vs ++ ms, ks ++ ts⟩ : Round).unserved = ts ∧
      (⟨vs ++ ms, ks ++ ts⟩ : Round).unclaimed = ms := by
  have hzip : (ks ++ ts).zip (vs ++ ms) = ks.zip vs := by
    rw [List.zip_append hl]
    rcases h with rfl | rfl
    · rw [List.zip_nil_right, List.append_nil]
    · rw [List.zip_nil_left, List.append_nil]
  refine ⟨hzip, ?_, ?_⟩
  · rcases h with rfl | rfl
    · rw [unserved, List.append_nil, ← hl, List.drop_left]
    · exact List.drop_eq_nil_of_le (by simp [hl])
  · rcases h with rfl | rfl
    · exact List.drop_eq_nil_of_le (by simp [hl])
    · rw [unclaimed, List.append_nil, hl, List.drop_left]

/-- The pairs of a channel, and what is left over. -/
theorem exists_parts (r : Round) :
    ∃ ks vs, ks.length = vs.length ∧ r = ⟨vs ++ r.unclaimed, ks ++ r.unserved⟩ ∧
      r.served = ks.zip vs := by
  refine ⟨r.asked.take r.sent.length, r.sent.take r.asked.length, ?_, ?_, ?_⟩
  · rw [List.length_take, List.length_take, Nat.min_comm]
  · rw [unclaimed, unserved, List.take_append_drop, List.take_append_drop]
  · rw [served, List.zip_eq_zip_take_min]
    rcases Nat.le_total r.sent.length r.asked.length with h | h
    · rw [Nat.min_eq_right h, List.take_of_length_le (Nat.le_refl _), List.take_of_length_le h]
    · rw [Nat.min_eq_left h, List.take_of_length_le (Nat.le_refl _), List.take_of_length_le h]

/-- The receives of a channel are those that have their message and those that wait. -/
theorem asked_eq (r : Round) : r.asked = r.served.keys ++ r.unserved := by
  obtain ⟨ks, vs, hl, hr, hserved⟩ := r.exists_parts
  rw [hserved, Table.keys, List.map_fst_zip (Nat.le_of_eq hl)]
  exact congrArg asked hr

/-- A message that no receive waits for is kept. -/
theorem send_of_unserved_nil (payload : Payload) (h : r.unserved = []) :
    (r.send payload).served = r.served ∧ (r.send payload).unserved = [] ∧
      (r.send payload).unclaimed = r.unclaimed ++ [payload] := by
  obtain ⟨ks, vs, hl, hr, hserved⟩ := r.exists_parts
  have hsend : r.send payload = ⟨vs ++ (r.unclaimed ++ [payload]), ks ++ []⟩ := by
    rw [← h, ← List.append_assoc]
    exact congrArg (send · payload) hr
  rw [hsend, hserved]
  exact of_parts _ _ hl (Or.inr rfl)

/-- A message goes to the oldest receive that waits. -/
theorem send_of_unserved_cons (payload : Payload) {ts : List Ticket} (h : r.unserved = t :: ts) :
    (r.send payload).served = r.served ++ [(t, payload)] ∧ (r.send payload).unserved = ts ∧
      (r.send payload).unclaimed = [] := by
  obtain ⟨ks, vs, hl, hr, hserved⟩ := r.exists_parts
  have hnil : r.unclaimed = [] := r.unclaimed_eq_nil_or.resolve_right (by rw [h]; simp)
  have hsend : r.send payload = ⟨(vs ++ [payload]) ++ [], (ks ++ [t]) ++ ts⟩ := by
    rw [List.append_nil, List.append_assoc, List.singleton_append, ← h]
    refine (congrArg (send · payload) hr).trans ?_
    rw [hnil, List.append_nil]
    rfl
  have hparts := @of_parts (ks ++ [t]) (vs ++ [payload]) ts []
    (by rw [List.length_append, List.length_append, hl]; rfl) (Or.inl rfl)
  rw [hsend, hserved]
  rwa [List.zip_append hl] at hparts

/-- A receive for which no message waits is queued. -/
theorem ask_of_unclaimed_nil (h : r.unclaimed = []) :
    (r.ask t).served = r.served ∧ (r.ask t).unserved = r.unserved ++ [t] ∧
      (r.ask t).unclaimed = [] := by
  obtain ⟨ks, vs, hl, hr, hserved⟩ := r.exists_parts
  have hask : r.ask t = ⟨vs ++ [], ks ++ (r.unserved ++ [t])⟩ := by
    rw [← h, ← List.append_assoc]
    exact congrArg (ask · t) hr
  rw [hask, hserved]
  exact of_parts _ _ hl (Or.inl rfl)

/-- A receive takes the oldest message that waits. -/
theorem ask_of_unclaimed_cons {ps : List Payload} (h : r.unclaimed = payload :: ps) :
    (r.ask t).served = r.served ++ [(t, payload)] ∧ (r.ask t).unserved = [] ∧
      (r.ask t).unclaimed = ps := by
  obtain ⟨ks, vs, hl, hr, hserved⟩ := r.exists_parts
  have hnil : r.unserved = [] := r.unclaimed_eq_nil_or.resolve_left (by rw [h]; simp)
  have hask : r.ask t = ⟨(vs ++ [payload]) ++ ps, (ks ++ [t]) ++ []⟩ := by
    rw [List.append_nil, List.append_assoc, List.singleton_append, ← h]
    refine (congrArg (ask · t) hr).trans ?_
    rw [hnil, List.append_nil]
    rfl
  have hparts := @of_parts (ks ++ [t]) (vs ++ [payload]) [] ps
    (by rw [List.length_append, List.length_append, hl]; rfl) (Or.inr rfl)
  rw [hask, hserved]
  rwa [List.zip_append hl] at hparts

/-- A new receive changes nothing for those that have their message. -/
theorem find?_served_ask (h : t' ≠ t) : (r.ask t).served.find? t' = r.served.find? t' := by
  cases hleft : r.unclaimed with
  | nil => rw [(ask_of_unclaimed_nil hleft).1]
  | cons payload ps =>
    rw [(ask_of_unclaimed_cons hleft).1, Table.find?_append_singleton, if_neg h, Option.or_none]

/-- A receive that is struck out is missed only among those that wait. -/
theorem withdraw_parts (hn : r.asked.Nodup) :
    (r.withdraw t).served = r.served ∧
      (r.withdraw t).unserved = r.unserved.filter (fun t' => decide (t' ≠ t)) ∧
      (r.withdraw t).unclaimed = r.unclaimed := by
  by_cases ht : t ∈ r.unserved
  · obtain ⟨ks, vs, hl, hr, hserved⟩ := r.exists_parts
    have hasked : r.asked = ks ++ r.unserved := congrArg asked hr
    have hks : t ∉ ks := fun hk => List.disjoint_of_nodup_append (hasked ▸ hn) hk ht
    have hnodup : r.unserved.Nodup := (hasked ▸ hn).of_append_right
    have hnil : r.unclaimed = [] := r.unclaimed_eq_nil_or.resolve_right (List.ne_nil_of_mem ht)
    have hwithdraw : r.withdraw t = ⟨vs ++ r.unclaimed, ks ++ r.unserved.erase t⟩ := by
      rw [withdraw, if_pos ht, ← List.erase_append_right _ hks, ← hasked]
      exact congrArg (fun x : Round => (⟨x.sent, r.asked.erase t⟩ : Round)) hr
    rw [hwithdraw, hserved]
    obtain ⟨h₁, h₂, h₃⟩ := of_parts (r.unserved.erase t) _ hl (Or.inl hnil)
    refine ⟨h₁, ?_, h₃⟩
    rw [h₂, hnodup.erase_eq_filter]
    refine List.filter_congr fun t' _ => ?_
    rw [Bool.eq_iff_iff, bne_iff_ne, decide_eq_true_iff]
  · rw [withdraw, if_neg ht]
    refine ⟨rfl, ?_, rfl⟩
    refine (List.filter_eq_self.mpr fun t' h => decide_eq_true ?_).symm
    rintro rfl
    exact ht h

end Round

namespace Pipe

variable {p p' : Pipe} {ch : Channel} {t t' : Ticket} {payload : Payload}

theorem asked_eq (p : Pipe) : p.asked = p.current.asked ++ p.past.flatMap (·.asked) := rfl

theorem mem_asked_of_current (h : t ∈ p.current.asked) : t ∈ p.asked :=
  List.mem_append_left _ h

theorem mem_asked_of_unserved (h : t ∈ p.current.unserved) : t ∈ p.asked :=
  mem_asked_of_current (p.current.asked_eq ▸ List.mem_append_right _ h)

/-- The receives that wait are those that are left over. -/
theorem receipt_eq_waiting_iff (hn : p.asked.Nodup) :
    p.receipt ch t = .waiting ↔ t ∈ p.current.unserved := by
  have hcurrent : p.current.asked = p.current.served.keys ++ p.current.unserved :=
    p.current.asked_eq
  constructor
  · intro h
    rw [receipt] at h
    split at h
    · cases h
    · rename_i hnone
      split at h
      · rename_i hmem
        rw [hcurrent, List.mem_append] at hmem
        refine hmem.resolve_left fun hserved => ?_
        obtain ⟨v, hv⟩ := Table.exists_find?_of_mem_keys hserved
        rw [message?, rounds, List.findSome?_cons, hv] at hnone
        cases hnone
      · cases h
  · intro h
    have hnone : p.message? t = none := by
      rw [message?, rounds, List.findSome?_eq_none_iff]
      intro r hr
      rw [Table.find?_eq_none_iff]
      intro hkey
      rcases List.mem_cons.mp hr with rfl | hpast
      · have hround : p.current.asked.Nodup := hn.of_append_left
        rw [hcurrent] at hround
        exact List.disjoint_of_nodup_append hround hkey h
      · have hbefore : t ∈ p.past.flatMap (·.asked) :=
          List.mem_flatMap.mpr ⟨r, hpast, r.asked_eq ▸ List.mem_append_left _ hkey⟩
        have hnow : t ∈ p.current.asked := hcurrent ▸ List.mem_append_right _ h
        exact List.disjoint_of_nodup_append hn hnow hbefore
    rw [receipt, hnone]
    exact if_pos (hcurrent ▸ List.mem_append_right _ h)

/-- A receive does not notice what happens to others on its channel. -/
theorem receipt_congr (hpast : p'.past = p.past)
    (hserved : p'.current.served.find? t = p.current.served.find? t)
    (hasked : t ∈ p'.current.asked ↔ t ∈ p.current.asked) : p'.receipt ch t = p.receipt ch t := by
  have hmessage : p'.message? t = p.message? t := by
    rw [message?, message?, rounds, rounds, List.findSome?_cons, List.findSome?_cons, hserved, hpast]
  rw [receipt, receipt, hmessage]
  simp only [hasked]

/-- The newest pair of a channel is a receive with its message. -/
theorem receipt_of_served (hserved : p.current.served = p'.current.served ++ [(t, payload)])
    (hnew : t ∉ p'.current.served.keys) : p.receipt ch t = .delivered payload := by
  have hfind : p.current.served.find? t = some payload := by
    rw [hserved, Table.find?_append_singleton, Table.find?_eq_none_iff.mpr hnew]
    simp
  rw [receipt, message?, rounds, List.findSome?_cons, hfind]

/-- A receive does not notice that another is struck out. -/
theorem receipt_withdraw (hn : p.asked.Nodup) (h : t' ≠ t) :
    (p.withdraw t).receipt ch t' = p.receipt ch t' := by
  have hround : p.current.asked.Nodup := hn.of_append_left
  refine receipt_congr rfl (congrArg (Table.find? · t') (Round.withdraw_parts hround).1) ?_
  change t' ∈ (p.current.withdraw t).asked ↔ t' ∈ p.current.asked
  rw [Round.withdraw]
  split
  · exact List.mem_erase_of_ne h
  · exact Iff.rfl

/-- Where a channel is emptied, the receives that wait are closed. -/
theorem receipt_retire (p : Pipe) (ch : Channel) (t : Ticket) :
    p.retire.receipt ch t =
      if p.receipt ch t = .waiting then .refused (.closed ch.source ch.tag) else p.receipt ch t := by
  have hmessage : p.retire.message? t = p.message? t := by
    rw [message?, rounds, List.findSome?_cons]
    rfl
  rw [receipt, receipt, hmessage]
  cases p.message? t with
  | some payload => simp
  | none => by_cases h : t ∈ p.current.asked <;> simp [h, retire]

end Pipe

/-! ## The exchange -/

namespace Exchange

variable {e : Exchange} {r r' : Rank} {ch ch' : Channel} {t t' : Ticket} {f : Pipe → Pipe}

@[simp] theorem change_self : (e.change r ch f).pipes r ch = f (e.pipes r ch) :=
  if_pos ⟨rfl, rfl⟩

theorem change_other (h : ¬(r' = r ∧ ch' = ch)) :
    (e.change r ch f).pipes r' ch' = e.pipes r' ch' := if_neg h

@[simp] theorem size_change : (e.change r ch f).size = e.size := rfl

@[simp] theorem held_change : (e.change r ch f).held = e.held := rfl

@[simp] theorem nextTicket_change : (e.change r ch f).nextTicket = e.nextTicket := rfl

@[simp] theorem pipes_release : (e.release t).pipes = e.pipes := rfl

@[simp] theorem pipes_hold : (e.hold r ch).pipes = e.pipes := rfl

theorem held_release : (e.release t).held t' = if t' = t then none else e.held t' := rfl

theorem held_hold :
    (e.hold r ch).held t = if t = e.nextTicket then some (r, ch) else e.held t := rfl

/-- A receive is known on no channel but its own, and by a number that has been given out. -/
structure Sound (e : Exchange) : Prop where
  issued : ∀ r ch, ∀ t ∈ (e.pipes r ch).asked, t < e.nextTicket
  own : ∀ r ch, ∀ t ∈ (e.pipes r ch).asked, ∀ o, e.held t = some o → o = (r, ch)
  inside : ∀ r ch, ∀ t ∈ (e.pipes r ch).asked, ch.source < e.size
  nodup : ∀ r ch, (e.pipes r ch).asked.Nodup
  known : ∀ t o, e.held t = some o → t < e.nextTicket

theorem sound_ofSize (n : Nat) : (ofSize n).Sound :=
  ⟨fun _ _ _ h => absurd h List.not_mem_nil, fun _ _ _ h => absurd h List.not_mem_nil,
    fun _ _ _ h => absurd h List.not_mem_nil, fun _ _ => List.nodup_nil,
    fun _ _ h => nomatch h⟩

/-- Where a channel has no new receive, all is as it was. -/
theorem Sound.change (he : e.Sound)
    (hsub : (f (e.pipes r ch)).asked.Sublist (e.pipes r ch).asked) : (e.change r ch f).Sound := by
  have hall : ∀ r' ch', ((e.change r ch f).pipes r' ch').asked.Sublist (e.pipes r' ch').asked := by
    intro r' ch'
    by_cases h : r' = r ∧ ch' = ch
    · obtain ⟨rfl, rfl⟩ := h
      rwa [change_self]
    · rw [change_other h]
  exact ⟨fun r' ch' t ht => he.issued r' ch' t ((hall r' ch').subset ht),
    fun r' ch' t ht => he.own r' ch' t ((hall r' ch').subset ht),
    fun r' ch' t ht => he.inside r' ch' t ((hall r' ch').subset ht),
    fun r' ch' => (hall r' ch').nodup (he.nodup r' ch'), he.known⟩

theorem Sound.release (he : e.Sound) : (e.release t).Sound := by
  have hheld : ∀ t' o, (e.release t).held t' = some o → e.held t' = some o := by
    intro t' o ho
    rw [held_release] at ho
    split at ho
    · cases ho
    · exact ho
  exact ⟨he.issued, fun r ch t' ht o ho => he.own r ch t' ht o (hheld t' o ho), he.inside, he.nodup,
    fun t' o ho => he.known t' o (hheld t' o ho)⟩

theorem Sound.known_hold (he : e.Sound) (o : Rank × Channel) (ho : (e.hold r ch).held t = some o) :
    t < e.nextTicket + 1 := by
  rw [held_hold] at ho
  split at ho
  · rename_i heq
    exact heq ▸ Nat.lt_succ_self _
  · exact Nat.lt_succ_of_lt (he.known t o ho)

/-- A receive that names a rank outside the world is on no channel. -/
theorem Sound.hold (he : e.Sound) : (e.hold r ch).Sound := by
  refine ⟨fun r' ch' t ht => Nat.lt_succ_of_lt (he.issued r' ch' t ht), ?_, he.inside, he.nodup,
    fun t o => he.known_hold o⟩
  intro r' ch' t ht o ho
  rw [held_hold, if_neg (Nat.ne_of_lt (he.issued r' ch' t ht))] at ho
  exact he.own r' ch' t ht o ho

/-- A new receive goes to the end of its channel. -/
theorem Sound.ask (he : e.Sound) (hsrc : ch.source < e.size) :
    ((e.change r ch (·.ask e.nextTicket)).hold r ch).Sound := by
  have hself : ((e.pipes r ch).ask e.nextTicket).asked =
      (e.pipes r ch).current.asked ++ [e.nextTicket] ++ (e.pipes r ch).past.flatMap (·.asked) := rfl
  have hnew : ∀ r' ch', e.nextTicket ∉ (e.pipes r' ch').asked :=
    fun r' ch' h => Nat.lt_irrefl _ (he.issued r' ch' _ h)
  have hmem : ∀ r' ch' t, t ∈ ((e.change r ch (·.ask e.nextTicket)).pipes r' ch').asked →
      t ∈ (e.pipes r' ch').asked ∨ t = e.nextTicket ∧ r' = r ∧ ch' = ch := by
    intro r' ch' t ht
    by_cases h : r' = r ∧ ch' = ch
    · obtain ⟨rfl, rfl⟩ := h
      rw [change_self, hself, List.mem_append, List.mem_append, List.mem_singleton] at ht
      rw [Pipe.asked_eq, List.mem_append]
      tauto
    · rw [change_other h] at ht
      exact Or.inl ht
  refine ⟨fun r' ch' t ht => ?_, fun r' ch' t ht o ho => ?_, fun r' ch' t ht => ?_, fun r' ch' => ?_,
    fun t o ho => he.known_hold o ho⟩
  · rcases hmem r' ch' t ht with hold | ⟨rfl, -⟩
    · exact Nat.lt_succ_of_lt (he.issued r' ch' t hold)
    · exact Nat.lt_succ_self _
  · rw [held_hold, nextTicket_change, held_change] at ho
    rcases hmem r' ch' t ht with hold | ⟨rfl, rfl, rfl⟩
    · rw [if_neg (Nat.ne_of_lt (he.issued r' ch' t hold))] at ho
      exact he.own r' ch' t hold o ho
    · rw [if_pos rfl, Option.some.injEq] at ho
      exact ho.symm
  · rcases hmem r' ch' t ht with hold | ⟨-, -, rfl⟩
    · exact he.inside r' ch' t hold
    · exact hsrc
  · rw [pipes_hold]
    by_cases h : r' = r ∧ ch' = ch
    · obtain ⟨rfl, rfl⟩ := h
      rw [change_self, hself, List.append_assoc, List.singleton_append, List.nodup_middle]
      exact List.nodup_cons.mpr ⟨hnew r' ch', he.nodup r' ch'⟩
    · rw [change_other h]
      exact he.nodup r' ch'

theorem Sound.retire (he : e.Sound) (rank : Rank) (range : TagRange) :
    (e.retire rank range).Sound := by
  have hasked : ∀ r ch, ((e.retire rank range).pipes r ch).asked = (e.pipes r ch).asked := by
    intro r ch
    unfold Exchange.retire
    dsimp only
    split <;> rfl
  exact ⟨fun r ch t ht => he.issued r ch t (hasked r ch ▸ ht),
    fun r ch t ht => he.own r ch t (hasked r ch ▸ ht),
    fun r ch t ht => he.inside r ch t (hasked r ch ▸ ht), fun r ch => hasked r ch ▸ he.nodup r ch,
    he.known⟩

/-! ### Receipts -/

/-- The receives that wait are those that their channel has left over. -/
theorem Sound.receipt_eq_waiting_iff (he : e.Sound) :
    e.receipt t = some .waiting ↔ ∃ r ch, e.held t = some (r, ch) ∧ t ∈ (e.pipes r ch).current.unserved := by
  constructor
  · intro h
    obtain ⟨⟨r, ch⟩, hheld, hreceipt⟩ := Option.map_eq_some_iff.mp h
    split at hreceipt
    · exact ⟨r, ch, hheld, (Pipe.receipt_eq_waiting_iff (he.nodup r ch)).mp hreceipt⟩
    · cases hreceipt
  · rintro ⟨r, ch, hheld, hmem⟩
    have hsrc : ch.source < e.size := he.inside r ch t (Pipe.mem_asked_of_unserved hmem)
    rw [receipt, hheld, Option.map_some, if_pos hsrc,
      (Pipe.receipt_eq_waiting_iff (he.nodup r ch)).mpr hmem]

/-- A receive that is held and left over on a channel waits there. -/
theorem Sound.held_of_mem_unserved (he : e.Sound) (hheld : (e.held t).isSome)
    (ht : t ∈ (e.pipes r ch).current.unserved) : e.held t = some (r, ch) := by
  obtain ⟨o, ho⟩ := Option.isSome_iff_exists.mp hheld
  rw [ho, he.own r ch t (Pipe.mem_asked_of_unserved ht) o ho]

theorem receipt_change_self (hheld : e.held t = some (r, ch)) (hsrc : ch.source < e.size) :
    (e.change r ch f).receipt t = some ((f (e.pipes r ch)).receipt ch t) := by
  have hheld' : (e.change r ch f).held t = some (r, ch) := hheld
  rw [receipt, hheld', Option.map_some, change_self]
  exact congrArg some (if_pos hsrc)

/-- What happens on a channel is noticed by its receives alone. -/
theorem receipt_change (h : e.held t = some (r, ch) →
    (f (e.pipes r ch)).receipt ch t = (e.pipes r ch).receipt ch t) :
    (e.change r ch f).receipt t = e.receipt t := by
  refine Option.map_congr fun o ho => ?_
  have hsize : (e.change r ch f).size = e.size := rfl
  by_cases hc : o.1 = r ∧ o.2 = ch
  · obtain ⟨rfl, rfl⟩ := hc
    rw [change_self, h ho, hsize]
  · rw [change_other hc, hsize]

theorem receipt_release : (e.release t).receipt t' = if t' = t then none else e.receipt t' := by
  rw [receipt, held_release]
  split <;> rfl

theorem receipt_hold_of_ne (h : t ≠ e.nextTicket) : (e.hold r ch).receipt t = e.receipt t := by
  rw [receipt, held_hold, if_neg h]
  rfl

theorem receipt_hold_self : (e.hold r ch).receipt e.nextTicket =
    some (if ch.source < e.size then (e.pipes r ch).receipt ch e.nextTicket
      else .refused (.noSuchRank ch.source e.size)) := by
  rw [receipt, held_hold, if_pos rfl]
  rfl

theorem receipt_ask_of_ne (h : t ≠ e.nextTicket) :
    ((e.change r ch (·.ask e.nextTicket)).hold r ch).receipt t = e.receipt t := by
  rw [receipt_hold_of_ne (by exact h)]
  refine receipt_change fun _ => Pipe.receipt_congr rfl (Round.find?_served_ask h) ?_
  exact List.mem_append.trans (or_iff_left fun hmem => h (List.mem_singleton.mp hmem))

theorem receipt_ask_self (hsrc : ch.source < e.size) :
    ((e.change r ch (·.ask e.nextTicket)).hold r ch).receipt e.nextTicket =
      some (((e.pipes r ch).ask e.nextTicket).receipt ch e.nextTicket) := by
  have h : ((e.change r ch (·.ask e.nextTicket)).hold r ch).receipt
      (e.change r ch (·.ask e.nextTicket)).nextTicket = _ := receipt_hold_self
  rw [size_change, if_pos hsrc, change_self] at h
  exact h

/-- A receive that does not wait on a channel that is emptied is left alone. -/
theorem receipt_retire_of_not {rank : Rank} {range : TagRange}
    (h : e.receipt t = some .waiting →
      ∀ r ch, e.held t = some (r, ch) → ¬(r = rank ∧ range.contains ch.tag = true)) :
    (e.retire rank range).receipt t = e.receipt t := by
  refine Option.map_congr fun o ho => ?_
  obtain ⟨r, ch⟩ := o
  have hheld : e.held t = some (r, ch) := ho
  have hsize : (e.retire rank range).size = e.size := rfl
  rw [hsize]
  split
  · rename_i hsrc
    rw [Exchange.retire]
    dsimp only
    split
    · rename_i hcover
      rw [Pipe.receipt_retire, if_neg fun hwait => h ?_ r ch hheld hcover]
      rw [receipt, hheld, Option.map_some, if_pos hsrc, hwait]
    · rfl
  · rfl

/-- A receive that waits on a channel that is emptied is closed. -/
theorem receipt_retire_self {rank : Rank} {range : TagRange} (hwait : e.receipt t = some .waiting)
    (hheld : e.held t = some (rank, ch)) (hcover : range.contains ch.tag = true) :
    (e.retire rank range).receipt t = some (.refused (.closed ch.source ch.tag)) := by
  rw [receipt, hheld, Option.map_some, Option.some.injEq] at hwait
  split at hwait
  · rename_i hsrc
    have hheld' : (e.retire rank range).held t = some (rank, ch) := hheld
    have hpipe : (e.retire rank range).pipes rank ch = (e.pipes rank ch).retire :=
      if_pos ⟨rfl, hcover⟩
    rw [receipt, hheld', Option.map_some, if_pos (show ch.source < (e.retire rank range).size from hsrc),
      hpipe, Pipe.receipt_retire, if_pos hwait]
  · cases hwait

/-- What does not concern a channel leaves alone what has become of its receives. -/
theorem Sound.receipt_unmoved (he : e.Sound) {a : Cluster.Action} (hheld : e.held t = some (r, ch))
    (hnot : ¬a.Concerns e.size r ch) (hpoll : a ≠ .poll t) (hforget : a ≠ .forget t) :
    (e.act a).1.receipt t = e.receipt t := by
  have hold : t ≠ e.nextTicket := Nat.ne_of_lt (he.known t _ hheld)
  have helse : ∀ {r' ch' f}, ¬(r = r' ∧ ch = ch') → (e.change r' ch' f).receipt t = e.receipt t := by
    refine fun hne => receipt_change fun h => absurd ?_ hne
    rw [hheld, Option.some.injEq, Prod.mk.injEq] at h
    exact h
  cases a with
  | send src dst tag payload =>
    rw [act]
    split
    · rename_i hdst
      exact helse fun h => hnot ⟨h.1.symm, h.2.symm, hdst⟩
    · rfl
  | receive rank src tag =>
    rw [act]
    split
    · exact receipt_ask_of_ne hold
    · exact receipt_hold_of_ne hold
  | poll t' =>
    have hne : t ≠ t' := fun h => hpoll (h ▸ rfl)
    rw [act]
    split
    · rfl
    · rfl
    · rw [receipt_release, if_neg hne]
    · rw [receipt_release, if_neg hne]
  | forget t' =>
    have hne : t ≠ t' := fun h => hforget (h ▸ rfl)
    rw [act]
    split
    · rfl
    · rw [receipt_release, if_neg hne]
      exact receipt_change fun _ => Pipe.receipt_withdraw (he.nodup _ _) hne
  | retire rank range =>
    refine receipt_retire_of_not fun _ r' ch' hheld' => ?_
    rw [hheld, Option.some.injEq, Prod.mk.injEq] at hheld'
    exact fun h => hnot ⟨h.1 ▸ hheld'.1.symm, hheld'.2 ▸ h.2⟩

theorem size_act (e : Exchange) (a : Cluster.Action) : (e.act a).1.size = e.size := by
  cases a <;> rw [act]
  · split <;> rfl
  · split <;> rfl
  · split <;> rfl
  · split <;> rfl
  · rfl

theorem size_after (e : Exchange) (as : List Cluster.Action) : (e.after as).size = e.size := by
  unfold after
  induction as generalizing e with
  | nil => rfl
  | cons a as ih => rw [List.foldl_cons, ih, size_act]

end Exchange

end TiledTensor

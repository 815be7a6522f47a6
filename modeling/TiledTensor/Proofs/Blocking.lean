import TiledTensor.Proofs.LockRuns
import TiledTensor.Proofs.Making
import TiledTensor.Proofs.Pairing
import TiledTensor.Proofs.Quiescence

/-!
# Who waits for ever

Sends and receives pair up lock by lock as they do otherwise.  But a world in which all calls have
been made and no accessor is open may have come to a halt too early.  Then somebody who only reads a
buffer is to allocate it and waits for another reader who holds it, and who himself waits: where
readers give way, for a lock that he could share (`World.LockRun.not_settled_of_readers`).

Where readers do not give way, the waiting has an end, since those who wait for memory have looked
for it one after the other.  And where ranks compute their tiles before they read or send them,
nobody waits for memory (`World.LockRun.transfers_pair_and_settle`).
-/

namespace TiledTensor

variable {α : Type} [Scalar α]

/-! ## A rank that cannot move -/

namespace Station

variable {n₀ : Node α} {net : Cluster} {s : Station α} {o : Opening} {gives : Bool} {i : Nat}
  {hist : List (Entry α)} {V : Nat → Option (List α)} {log : List (Task α)} {done : TaskId → Prop}

namespace Poised

/-- Whoever is not done with opening waits for a lock. -/
theorem not_free_of_still (hp : s.Poised n₀ net hist done)
    (hstill : ∀ mv : Motion α, mv.own = true → s.move gives net mv = none) (ho : o ∈ s.openings)
    (hfull : o.full = false) : ∃ l, o.asks = some l ∧ s.free gives l = false := by
  obtain ⟨i, hfound⟩ := List.getElem?_of_mem ho
  have hended : o.ended = false := by
    unfold Opening.ended
    rw [hfull, Bool.false_or, decide_eq_false_iff_not]
    exact hp.steady.going o ho
  have hmove := hstill (.lock i) rfl
  unfold move lock at hmove
  dsimp only at hmove
  rw [hfound] at hmove
  dsimp only at hmove
  rw [hended] at hmove
  cases hasks : o.asks with
  | none =>
    rw [hasks] at hmove
    cases hmove
  | some l =>
    refine ⟨l, rfl, Bool.eq_false_iff.mpr fun hfree => ?_⟩
    rw [hasks, Option.all_some, hfree] at hmove
    cases hmove

/-- Whoever waits is to allocate for a reader, or gives way to somebody who is. -/
theorem lacks_of_still (hp : s.Poised n₀ net hist done)
    (hl : s.node.Ledger n₀ hist V log done s.starting)
    (hstill : ∀ mv : Motion α, mv.own = true → s.move gives net mv = none) (ho : o ∈ s.openings)
    (hfull : o.full = false) : ∃ o' ∈ s.openings, (gives = true ∨ o' = o) ∧
      ∃ h a, o'.Lacks h a ∧ a.writes = false := by
  obtain ⟨scheduler, hs⟩ := Option.isSome_iff_exists.mp hp.healthy.alive
  obtain ⟨l, hasks, hfree⟩ := hp.not_free_of_still hstill ho hfull
  by_contra hnone
  refine Bool.eq_false_iff.mp hfree (hp.steady.free gives hl.account.orderly hs
    (fun w => hp.healthy.unshared_of_work hl) ho ?_ hasks)
  intro o' ho' hcares h a hlacks
  exact Bool.not_eq_false _ |>.mp fun hread => hnone ⟨o', ho', hcares, h, a, hlacks, hread⟩

/-- Whatever has been opened can be used, unless it is for the holder of an accessor. -/
theorem finish_ne_none (hp : s.Poised n₀ net hist done)
    (hl : s.node.Ledger n₀ hist V log done s.starting) (hfound : s.openings[i]? = some o)
    (hfull : o.full = true) (hholder : o.opener ≠ .holder) : s.finish net i ≠ none := by
  have hended : o.ended = true := by
    unfold Opening.ended
    rw [hfull, Bool.true_or]
  unfold finish
  rw [hfound]
  dsimp only
  rw [if_pos hended]
  cases hp.steady.placed o (List.mem_of_getElem? hfound) with
  | @worker w opener mem id operands =>
    have hlt : (s.node.work.findIdx fun w => w.id == o.id) < s.node.work.length :=
      List.findIdx_lt_length_of_exists ⟨w, mem, beq_iff_eq.mpr id⟩
    rw [opener]
    dsimp only
    rw [Node.runWork_eq_some_iff.mpr ⟨_, List.getElem?_eq_getElem hlt, rfl⟩]
    exact Option.some_ne_none _
  | @send t rest h dst tag opener next id job operands =>
    rw [opener]
    unfold startNext
    dsimp only
    rw [next]
    exact Option.some_ne_none _
  | @evict t rest h opener next id job operands =>
    rw [opener]
    unfold startNext
    dsimp only
    rw [next]
    exact Option.some_ne_none _
  | @receiver a opener mem id operands answered =>
    obtain ⟨c, hc, hanswered⟩ := answered
    have hlt : (s.node.arrivals.findIdx fun a => a.id == o.id) < s.node.arrivals.length :=
      List.findIdx_lt_length_of_exists ⟨a, mem, beq_iff_eq.mpr id⟩
    have hget := List.getElem?_eq_getElem hlt
    have hid := (id_of_findIdx hget).trans id.symm
    rw [List.inj_on_of_nodup_map hl.account.orderly.sound.arrivals_nodup
      (List.mem_of_getElem? hget) mem hid] at hget
    rw [opener]
    dsimp only
    rw [Node.takeArrival_eq_some_iff.mpr ⟨a, c, hget, hc, hanswered, rfl, rfl⟩]
    exact Option.some_ne_none _
  | @holder a opener held operands => exact absurd opener hholder

/-- In a rank that cannot move nothing is open yet that is being opened, if no accessor is open. -/
theorem full_eq_false_of_still (hp : s.Poised n₀ net hist done)
    (hl : s.node.Ledger n₀ hist V log done s.starting)
    (hclosed : ∀ o ∈ s.openings, o.opener = .holder → o.full = false)
    (hstill : ∀ mv : Motion α, mv.own = true → s.move gives net mv = none) (ho : o ∈ s.openings) :
    o.full = false := by
  refine Bool.eq_false_iff.mpr fun hfull => ?_
  obtain ⟨i, hfound⟩ := List.getElem?_of_mem ho
  refine hp.finish_ne_none hl hfound hfull ?_ (hstill (.finish i) rfl)
  intro hholder
  exact Bool.false_ne_true ((hclosed o ho hholder).symm.trans hfull)

/-- Where readers do not give way, whoever is to allocate for a reader waits for another one who is. -/
theorem behind_of_still (hp : s.Poised n₀ net hist done)
    (hl : s.node.Ledger n₀ hist V log done s.starting)
    (hclosed : ∀ o ∈ s.openings, o.opener = .holder → o.full = false)
    (hstill : ∀ mv : Motion α, mv.own = true → s.move false net mv = none) (ho : o ∈ s.openings)
    {h : HandleId} {a : Access} (hlacks : o.Lacks h a) : ∃ o' ∈ s.openings, o.Behind o' ∧
      ∃ k b, o'.Lacks k b ∧ b.writes = false := by
  obtain ⟨scheduler, hs⟩ := Option.isSome_iff_exists.mp hp.healthy.alive
  have hwaits : ∀ o ∈ s.openings, o.full = false := fun o ho =>
    hp.full_eq_false_of_still hl hclosed hstill ho
  obtain ⟨hnext, hphase⟩ := hlacks
  obtain ⟨l, hasks, hfree⟩ := hp.not_free_of_still hstill ho (hwaits o ho)
  obtain rfl : l = (h, true) := by
    unfold Opening.asks at hasks
    rw [hnext] at hasks
    rcases hphase with hphase | hphase
    · rw [hphase] at hasks
      cases hasks
    · rw [hphase] at hasks
      exact (Option.some.inj hasks).symm
  -- somebody holds the buffer
  obtain ⟨o', ho', hadmits⟩ := List.all_eq_false.mp hfree
  obtain ⟨⟨k, b⟩, hheld, hk⟩ := List.all_eq_false.mp (Bool.eq_false_iff.mpr hadmits)
  obtain rfl : k = h := by simpa using hk
  obtain ⟨-, hread⟩ := hp.steady.reads_of_held hl.account.orderly hs
    (fun w => hp.healthy.unshared_of_work hl) ho hnext ho' hheld
  refine ⟨o', ho', ⟨k, a, b, ⟨hnext, hphase⟩, hheld, hread⟩, ?_⟩
  obtain ⟨o'', -, hcares, hlacks⟩ := hp.lacks_of_still hl hstill ho' (hwaits o' ho')
  obtain rfl : o'' = o' := hcares.resolve_left Bool.false_ne_true
  exact hlacks

/-- A rank that cannot move has nothing open, if no accessor is open and either readers do not give way
or nobody is to allocate for one. -/
theorem openings_eq_nil_of_still (hp : s.Poised n₀ net hist done)
    (hl : s.node.Ledger n₀ hist V log done s.starting)
    (hclosed : ∀ o ∈ s.openings, o.opener = .holder → o.full = false)
    (hstill : ∀ mv : Motion α, mv.own = true → s.move gives net mv = none)
    (hfree : gives = false ∨ ∀ o ∈ s.openings, ∀ h a, o.Lacks h a → a.writes = true) :
    s.openings = [] := by
  have hlacks : ∀ o ∈ s.openings, ¬∃ h a, o.Lacks h a ∧ a.writes = false := by
    rcases hfree with rfl | hfree
    · refine hp.staggered.not_of_behind ?_
      rintro o ho ⟨h, a, hlacks, -⟩
      obtain ⟨o', ho', hbehind, k, b, hlacks', hread⟩ :=
        hp.behind_of_still hl hclosed hstill ho hlacks
      exact ⟨o', ho', hbehind, ⟨k, b, hlacks'⟩, k, b, hlacks', hread⟩
    · rintro o ho ⟨h, a, hlacks, hread⟩
      exact Bool.eq_false_iff.mp hread (hfree o ho h a hlacks)
  refine List.eq_nil_iff_forall_not_mem.mpr fun o ho => ?_
  obtain ⟨o', ho', -, hlacks'⟩ :=
    hp.lacks_of_still hl hstill ho (hp.full_eq_false_of_still hl hclosed hstill ho)
  exact hlacks o' ho' hlacks'

end Poised

omit [Scalar α] in
/-- Where nothing is open, whatever there is to open can be begun. -/
theorem begin_ne_none (hnil : s.openings = []) {c : Opener} (hopens : s.opening net c i = some o) :
    s.begin net c i ≠ none := by
  have hready : s.ready c = true := by
    cases c with
    | worker =>
      refine decide_eq_true ?_
      rw [hnil]
      exact Nat.zero_le _
    | scheduler => rfl
    | receiver => rfl
    | holder => rfl
  unfold begin
  rw [hopens]
  dsimp only
  rw [hready, hnil]
  simp

/-- A rank that cannot move and has nothing open has nothing left to do but to wait for messages. -/
theorem resting_of_still (hp : s.Poised n₀ net hist done) (hnil : s.openings = [])
    (hstill : ∀ mv : Motion α, mv.own = true → s.move gives net mv = none) :
    s.starting = [] ∧ (∃ scheduler, s.node.Resting scheduler) ∧
      ∀ a ∈ s.node.arrivals, ∀ c, net.receipts.find? a.ticket = some c → c = .waiting := by
  have hbegin : ∀ c i, s.opening net c i = none := by
    intro c i
    cases hopens : s.opening net c i with
    | none => rfl
    | some o =>
      exact absurd (Option.map_eq_none_iff.mp (hstill (.begin c i) rfl)) (begin_ne_none hnil hopens)
  obtain ⟨scheduler, hs⟩ := Option.isSome_iff_exists.mp hp.healthy.alive
  have hidle : s.starting = [] := by
    cases hnext : s.starting with
    | nil => rfl
    | cons t rest =>
      have hstart := hstill .start rfl
      unfold move start startNext at hstart
      dsimp only at hstart
      rw [hbegin, hnext] at hstart
      cases hstart
  refine ⟨hidle, ⟨scheduler, hs, ?_, ?_, ?_, fun h => (hp.healthy.intact.buffers h).whole⟩, ?_⟩
  · cases he : s.node.events with
    | nil => rfl
    | cons e events =>
      have htake := hstill .take rfl
      unfold move take at htake
      dsimp only at htake
      rw [hidle, hs, he] at htake
      dsimp only at htake
      split at htake <;> cases htake
  · cases hw : s.node.work with
    | nil => rfl
    | cons w work =>
      have hopens := hbegin .worker 0
      unfold opening at hopens
      dsimp only at hopens
      rw [hw] at hopens
      cases hopens
  · intro k a ha hgranted
    have hopens := hbegin .holder k
    obtain ⟨h, access, phase⟩ := a
    obtain rfl : phase = .granted := hgranted
    unfold opening at hopens
    dsimp only at hopens
    rw [ha] at hopens
    cases hopens
  · intro a ha c hc
    obtain ⟨i, hi⟩ := List.getElem?_of_mem ha
    have hopens := hbegin .receiver i
    unfold opening at hopens
    dsimp only at hopens
    rw [hi, Option.bind_some, hc] at hopens
    cases c with
    | waiting => rfl
    | delivered payload => cases hopens
    | refused e => cases hopens

/-- While something is being opened a task is left. -/
theorem graph_of_placed (hp : s.Placed net o) (hl : s.node.Ledger n₀ hist V log done s.starting)
    {scheduler : Scheduler α} (hs : s.node.scheduler = some scheduler) :
    scheduler.graph.isEmpty = false := by
  have hord := hl.account.orderly
  obtain ⟨m, roster, hr⟩ := hord.running scheduler hs
  have hne : ∃ e, e ∈ roster := by
    rcases (hp.task hord hs).1 with hactive | ⟨t, ht, -⟩
    · obtain ⟨e, he, -⟩ := hr.entry_of_active hord.sound hactive
      exact ⟨e, he⟩
    · obtain ⟨e, he, -⟩ := List.mem_map.mp (hr.starting t ht).1
      exact ⟨e, he⟩
  refine Bool.eq_false_iff.mpr fun hempty => ?_
  obtain ⟨e, he⟩ := hne
  rw [hr.tracks.isEmpty_iff.mp hempty] at he
  cases he

end Station

/-! ## A world that cannot move -/

omit [Scalar α] in
theorem getElem?_of_isPrefix {β : Type} {l m : List β} (h : l <+: m) {k : Nat} {x : β}
    (hx : l[k]? = some x) : m[k]? = some x := by
  obtain ⟨rest, rfl⟩ := h
  rwa [List.getElem?_append_left (lt_of_getElem?_eq_some hx)]

namespace World

open Station

variable {w₀ : World α} {tiles : List Tensor.Blueprint} {plan : List Line} {gives : Bool}
  {more : Rank → Nat} {V : Nat → Option (List α)} {hist : Rank → List (Entry α)}
  {mail : Rank → Mail} {net : Cluster} {st : Rank → Station α} {log : Rank → List (Task α)}
  {done : Rank → TaskId → Prop}

/-- All calls have been made, no accessor is open, and no rank can make a move. -/
structure Halted (w₀ : World α) (plan : List Line) (gives : Bool) (hist : Rank → List (Entry α))
    (net : Cluster) (st : Rank → Station α) : Prop where
  lines : ∀ r < w₀.size, lines (hist r) = plan
  closed : ∀ r < w₀.size, ∀ o ∈ (st r).openings, o.opener = .holder → o.full = false
  still : ∀ r < w₀.size, ∀ mv : Motion α, mv.own = true → (st r).move gives net mv = none

/-- No task and no message is left, and no rank waits for one. -/
structure Settled (w₀ : World α) (net : Cluster) (st : Rank → Station α) : Prop where
  graph : ∀ r < w₀.size, ∃ s, (st r).node.scheduler = some s ∧ s.graph.isEmpty = true
  mailboxes : ∀ box ∈ net.mailboxes, box.messages = [] ∧ box.waiters = []

theorem halted_iff : w₀.Halted plan gives hist net st ↔ ∀ r < w₀.size, lines (hist r) = plan ∧
    (∀ o ∈ (st r).openings, o.opener = .holder → o.full = false) ∧
      (st r).still gives net = true := by
  constructor
  · exact fun hh r hr => ⟨hh.lines r hr, hh.closed r hr, still_iff.mpr (hh.still r hr)⟩
  · exact fun h => ⟨fun r hr => (h r hr).1, fun r hr => (h r hr).2.1,
      fun r hr => still_iff.mp (h r hr).2.2⟩

instance : Decidable (w₀.Halted plan gives hist net st) := decidable_of_iff' _ halted_iff

omit [Scalar α] in
theorem settled_iff : w₀.Settled net st ↔
    (∀ r < w₀.size, (st r).node.scheduler.any (·.graph.isEmpty) = true) ∧
      ∀ box ∈ net.mailboxes, box.messages = [] ∧ box.waiters = [] := by
  simp only [Option.any_eq_true]
  exact ⟨fun hs => ⟨hs.graph, hs.mailboxes⟩, fun h => ⟨h.1, h.2⟩⟩

instance : Decidable (w₀.Settled net st) := decidable_of_iff' _ settled_iff

/-- A world that has come to a halt has settled, if readers do not give way or nobody is to allocate for
one. -/
theorem Halted.settled (hh : w₀.Halted plan gives hist net st) (hw : w₀.Common tiles plan)
    (hp : w₀.Poised tiles plan V hist mail net st log done)
    (hfree : gives = false ∨
      ∀ r < w₀.size, ∀ o ∈ (st r).openings, ∀ h a, o.Lacks h a → a.writes = true) :
    w₀.Settled net st := by
  have hc := hp.coherent
  have hrest : ∀ r < w₀.size, (st r).starting = [] ∧ (∃ s, (st r).node.Resting s) ∧
      ∀ a ∈ (st r).node.arrivals, ∀ c, net.receipts.find? a.ticket = some c → c = .waiting := by
    intro r hr
    refine resting_of_still (hp.ranks r hr) ?_ (hh.still r hr)
    exact (hp.ranks r hr).openings_eq_nil_of_still (hc.ledger r hr) (hh.closed r hr)
      (hh.still r hr) (hfree.imp_right fun h => h r hr)
  have hresting : ∀ r < w₀.size, (st r).node.Resting ((st r).node.scheduler.getD default) := by
    intro r hr
    obtain ⟨-, ⟨s, hs⟩, -⟩ := hrest r hr
    rwa [hs.scheduler]
  have hstand : Standstill w₀ plan net
      (fun r => (st r).site (hist r) (mail r) (log r) (done r))
      fun r => (st r).node.scheduler.getD default :=
    ⟨fun r hr => (hrest r hr).1, hh.lines, hresting, fun r hr => (hrest r hr).2.2⟩
  refine ⟨fun r hr => ⟨_, (hresting r hr).scheduler, hc.isEmpty_of_standstill hw hstand hr⟩, ?_⟩
  intro box hbox
  obtain ⟨r, hr⟩ := List.getElem?_of_mem hbox
  have hlt : r < w₀.size := by
    rw [← hc.wire.ranks]
    exact lt_of_getElem?_eq_some hr
  have hempty := hc.mailbox_of_standstill hw hstand hlt
  rw [List.getD_eq_getElem?_getD, hr] at hempty
  obtain rfl : box = {} := hempty
  exact ⟨rfl, rfl⟩

/-- In a world that has settled nothing is being opened. -/
theorem Settled.openings_eq_nil (hs : w₀.Settled net st)
    (hp : w₀.Poised tiles plan V hist mail net st log done) {r : Rank} (hr : r < w₀.size) :
    (st r).openings = [] := by
  refine List.eq_nil_iff_forall_not_mem.mpr fun o ho => ?_
  obtain ⟨s, hsome, hempty⟩ := hs.graph r hr
  have hleft := graph_of_placed ((hp.ranks r hr).steady.placed o ho) (hp.coherent.ledger r hr) hsome
  exact Bool.false_ne_true (hleft.symm.trans hempty)

/-- Sends and receives pair up, and a run in which nothing can fail settles unless readers keep each
other waiting.  At the same point of the program the owner of a tile has noted a rank exactly if the
rank has a copy; the `k`-th message that a rank has taken for a tile was the `k`-th sent to it, and went
to the `k`-th receive.  A world that has come to a halt has settled exactly if nobody is left who is to
allocate for a reader.  There is nobody if readers do not give way to writers, or if all ranks compute
their tiles before they read or send them. -/
theorem LockRun.transfers_pair_and_settle (hw : w₀.Common tiles plan)
    (run : w₀.LockRun gives more hist mail net st) (hf : ∀ r < w₀.size, lines (hist r) <+: plan)
    (hu : ∀ r < w₀.size, (w₀.node r).Unfailing (hist r)) :
    (∀ (h : HandleId) b, tiles[h]? = some b → ∀ r < w₀.size, r ≠ b.owner →
      (lines (hist b.owner) = lines (hist r) →
        (r ∈ ((st b.owner).node.handle h).sent ↔
          ((st r).node.handle h).state = .remoteCached)) ∧
      ∀ (k : Nat) id payload, (along h (mail r).taken)[k]? = some (id, payload) →
        (along h (mail r).asked)[k]? = some id ∧
          (along (h, r) (mail b.owner).sent)[k]? = some payload) ∧
    (w₀.Halted plan gives hist net st →
      (w₀.Settled net st ↔
        ∀ r < w₀.size, ∀ o ∈ (st r).openings, ∀ h a, o.Lacks h a → a.writes = true) ∧
      (gives = false ∨ (∀ r < w₀.size, (w₀.node r).Primed (hist r)) → w₀.Settled net st)) := by
  obtain ⟨V, log, done, hp⟩ := run.poised hw hf hu
  have hc := hp.coherent
  refine ⟨?_, fun hh => ⟨⟨?_, fun hfree => hh.settled hw hp (Or.inr hfree)⟩, ?_⟩⟩
  · intro h b hb r hr hne
    refine ⟨fun hsame => hc.noted_iff_cached hw hr hb hne hsame, ?_⟩
    intro k id payload htaken
    constructor
    · refine getElem?_of_isPrefix (hc.taken_prefix_asked hw hr hb) ?_
      rw [List.getElem?_map]
      exact congrArg (Option.map Prod.fst) htaken
    · refine getElem?_of_isPrefix (hc.taken_prefix_sent hw hr hb hne) ?_
      rw [List.getElem?_map]
      exact congrArg (Option.map Prod.snd) htaken
  · intro hs r hr o ho
    rw [hs.openings_eq_nil hp hr] at ho
    cases ho
  · intro hcalm
    refine hh.settled hw hp (hcalm.imp_right fun hprimed r hr => ?_)
    exact (hp.ranks r hr).lacking (hprimed r hr)

/-- A tile is computed, read and sent at the same time, and copied by the rank that receives it. -/
theorem LockRun.transfers_pair_and_settle_of_primed :
    ∃ (w₀ : World (ElementType.Value .bf16)) (tiles : List Tensor.Blueprint) (plan : List Line)
      (hist : Rank → List (Entry (ElementType.Value .bf16))) (mail : Rank → Mail) (net : Cluster)
      (st : Rank → Station (ElementType.Value .bf16)) (id : TaskId) (payload : Payload),
      w₀.Common tiles plan ∧ w₀.LockRun true (fun _ => 0) hist mail net st ∧
      (∀ r < w₀.size, (w₀.node r).Unfailing (hist r)) ∧ w₀.Halted plan true hist net st ∧
      (∀ r < w₀.size, (w₀.node r).Primed (hist r)) ∧
      along 0 (mail 1).taken = [(id, payload)] ∧ (along 0 (mail 1).asked)[0]? = some id ∧
      (along (0, 1) (mail 0).sent)[0]? = some payload ∧
      ((st 1).node.handle 0).state = .remoteCached ∧ (st 1).node.shows 1 = some [7] ∧
      w₀.Settled net st := by
  let tiles : List Tensor.Blueprint := [⟨.scalar, 0, ⟨0⟩⟩, ⟨.scalar, 1, ⟨1⟩⟩]
  let handles : List (Handle (ElementType.Value .bf16)) := tiles.map Tensor.Blueprint.handle
  let w₀ : World (ElementType.Value .bf16) :=
    ⟨.ofSize 2, [{ rank := 0, size := 2, codelets := ["seven", "peek"], handles },
      { rank := 1, size := 2, codelets := ["copy"], handles }]⟩
  let seven : Op (ElementType.Value .bf16) :=
    ⟨"seven", [.data 0 .write], fun _ => .ok [.exclusive [7]]⟩
  let peek : Op (ElementType.Value .bf16) := ⟨"peek", [.data 0 .read], .ok⟩
  let copy : Op (ElementType.Value .bf16) :=
    ⟨"copy", [.data 0 .read, .data 1 .write], Codelet.copy⟩
  let moves : List (Rank × Motion (ElementType.Value .bf16)) :=
    [(0, .act (.call (.submit seven))), (0, .act (.call (.submit peek))),
      (0, .act (.call (.transfer 0 1))), (1, .act (.call (.transfer 0 1))),
      (1, .act (.call (.submit copy))), (0, .take), (0, .start), (0, .begin .worker 0), (0, .lock 0),
      (0, .lock 0), (0, .lock 0), (0, .lock 0), (0, .finish 0), (0, .take), (0, .take), (0, .take),
      (0, .start), (0, .begin .worker 0), (0, .begin .scheduler 0), (0, .lock 0), (0, .lock 1),
      (0, .lock 0), (0, .lock 1), (0, .finish 0), (0, .finish 0), (0, .take), (0, .take), (1, .take),
      (1, .start), (1, .take), (1, .begin .receiver 0), (1, .lock 0), (1, .lock 0), (1, .lock 0),
      (1, .lock 0), (1, .finish 0), (1, .take), (1, .start), (1, .begin .worker 0), (1, .lock 0),
      (1, .lock 0), (1, .lock 0), (1, .lock 0), (1, .lock 0), (1, .lock 0), (1, .finish 0), (1, .take)]
  have hrank : ∀ r < w₀.size, r = 0 ∨ r = 1 := by
    intro r hr
    have : r < 2 := hr
    omega
  have hcommon : w₀.Common tiles [.transfer 0 1] := by
    refine ⟨World.alike_of_nodes rfl (by decide) (by decide) ?_, by decide⟩
    intro r hr
    rcases hrank r hr with rfl | rfl
    · exact ⟨["seven", "peek"], [], rfl, by simp⟩
    · exact ⟨["copy"], [], rfl, by simp⟩
  have hcheck : (World.trace 2 true (fun _ => []) (fun _ => {}) w₀.cluster
      (w₀.stations fun _ => 0) moves).any (fun p =>
        decide (w₀.Halted [.transfer 0 1] true p.1 p.2.2.1 p.2.2.2) &&
        decide (∀ r < w₀.size, (w₀.node r).Primed (p.1 r)) &&
        decide ((along 0 (p.2.1 1).taken).length = 1) &&
        decide (((p.2.2.2 0).node.handle 0).sent = [1]) &&
        decide ((p.2.2.2 1).node.shows 1 = some [7])) = true := by
    decide +kernel
  obtain ⟨⟨hist, mail, net, st⟩, htrace, hfacts⟩ := (Option.any_eq_true _ _).mp hcheck
  simp only [Bool.and_eq_true, decide_eq_true_eq] at hfacts
  obtain ⟨⟨⟨⟨hhalted, hprimed⟩, htaken⟩, hsent⟩, hshows⟩ := hfacts
  have run : w₀.LockRun true (fun _ => 0) hist mail net st := World.LockRun.nil.trace htrace
  have hu : ∀ r < w₀.size, (w₀.node r).Unfailing (hist r) := by
    intro r hr
    refine Node.unfailing_of_absent ?_ ?_
    · rcases hrank r hr with rfl | rfl <;> decide
    · intro id f hf
      have hop := (mem_of_trace htrace hf).resolve_left List.not_mem_nil
      have hcases : r = 0 ∧ f = seven ∨ r = 0 ∧ f = peek ∨ r = 1 ∧ f = copy := by
        simpa [moves] using hop
      rcases hcases with ⟨-, rfl⟩ | ⟨-, rfl⟩ | ⟨-, rfl⟩
      · exact ⟨by simp [seven], fun _ _ => ⟨_, rfl⟩⟩
      · exact ⟨by simp [peek], fun _ _ => ⟨_, rfl⟩⟩
      · refine ⟨by simp [copy], ?_⟩
        intro views hviews
        obtain ⟨v, others, ⟨src, -, rfl⟩, hothers, rfl⟩ := List.forall₂_cons_left_iff.mp hviews
        obtain ⟨v', none, ⟨dst, -, rfl⟩, hnone, rfl⟩ := List.forall₂_cons_left_iff.mp hothers
        obtain rfl := List.forall₂_nil_left_iff.mp hnone
        exact ⟨_, rfl⟩
  obtain ⟨⟨id, payload⟩, htake⟩ := List.length_eq_one_iff.mp htaken
  obtain ⟨hpair, hsettle⟩ := run.transfers_pair_and_settle hcommon
    (fun r hr => (hhalted.lines r hr).symm ▸ List.prefix_refl _) hu
  obtain ⟨hsame, hconsumed⟩ := hpair 0 _ rfl 1 (by decide) (by decide)
  obtain ⟨hasked, hposted⟩ := hconsumed 0 id payload (by rw [htake]; rfl)
  have hcached := (hsame ((hhalted.lines 0 (by decide)).trans
    (hhalted.lines 1 (by decide)).symm)).mp (by
      show 1 ∈ ((st 0).node.handle 0).sent
      rw [hsent]
      exact List.mem_cons_self)
  exact ⟨w₀, tiles, _, hist, mail, net, st, id, payload, hcommon, run, hu, hhalted, hprimed, htake,
    hasked, hposted, hcached, hshows, (hsettle hhalted).2 (Or.inr hprimed)⟩

/-- Two readers of a tile that has never been computed.  The send of the tile finds no memory.  Then a
computation that reads the tile twice allocates and takes its first lock, and the send asks for the lock
for writing.  It waits for the computation, which gives way to it and waits for its second lock. -/
theorem LockRun.not_settled_of_readers :
    ∃ (w₀ : World (ElementType.Value .bf16)) (tiles : List Tensor.Blueprint) (plan : List Line)
      (hist : Rank → List (Entry (ElementType.Value .bf16))) (mail : Rank → Mail) (net : Cluster)
      (st : Rank → Station (ElementType.Value .bf16)),
      w₀.Common tiles plan ∧ w₀.LockRun true (fun _ => 0) hist mail net st ∧
      (∀ r < w₀.size, (w₀.node r).Unfailing (hist r)) ∧ w₀.Halted plan true hist net st ∧
      ¬w₀.Settled net st := by
  let tiles : List Tensor.Blueprint := [⟨.scalar, 0, ⟨0⟩⟩, ⟨.scalar, 0, ⟨1⟩⟩]
  let handles : List (Handle (ElementType.Value .bf16)) := tiles.map Tensor.Blueprint.handle
  let w₀ : World (ElementType.Value .bf16) :=
    ⟨.ofSize 2, [{ rank := 0, size := 2, codelets := ["peek"], handles },
      { rank := 1, size := 2, codelets := [], handles }]⟩
  let peek : Op (ElementType.Value .bf16) :=
    ⟨"peek", [.data 0 .read, .data 0 .read, .data 1 .write], .ok⟩
  let moves : List (Rank × Motion (ElementType.Value .bf16)) :=
    [(0, .act (.call (.submit peek))), (0, .act (.call (.transfer 0 1))),
      (1, .act (.call (.transfer 0 1))), (1, .take), (1, .start), (0, .take), (0, .start), (0, .take),
      (0, .begin .worker 0), (0, .begin .scheduler 0), (0, .lock 1), (0, .lock 0), (0, .lock 0),
      (0, .lock 0), (0, .lock 0), (0, .lock 0), (0, .lock 1)]
  have hrank : ∀ r < w₀.size, r = 0 ∨ r = 1 := by
    intro r hr
    have : r < 2 := hr
    omega
  have hcommon : w₀.Common tiles [.transfer 0 1] := by
    refine ⟨World.alike_of_nodes rfl (by decide) (by decide) ?_, by decide⟩
    intro r hr
    rcases hrank r hr with rfl | rfl
    · exact ⟨["peek"], [], rfl, by simp⟩
    · exact ⟨[], [], rfl, by simp⟩
  have hcheck : (World.trace 2 true (fun _ => []) (fun _ => {}) w₀.cluster
      (w₀.stations fun _ => 0) moves).any (fun p =>
        decide (w₀.Halted [.transfer 0 1] true p.1 p.2.2.1 p.2.2.2) &&
        decide (¬w₀.Settled p.2.2.1 p.2.2.2)) = true := by
    decide +kernel
  obtain ⟨⟨hist, mail, net, st⟩, htrace, hfacts⟩ := (Option.any_eq_true _ _).mp hcheck
  simp only [Bool.and_eq_true, decide_eq_true_eq] at hfacts
  obtain ⟨hhalted, hleft⟩ := hfacts
  refine ⟨w₀, tiles, _, hist, mail, net, st, hcommon, World.LockRun.nil.trace htrace, ?_, hhalted,
    hleft⟩
  intro r hr
  refine Node.unfailing_of_absent ?_ ?_
  · rcases hrank r hr with rfl | rfl <;> decide
  · intro id f hf
    have hop := (mem_of_trace htrace hf).resolve_left List.not_mem_nil
    obtain ⟨-, rfl⟩ : r = 0 ∧ f = peek := by simpa [moves] using hop
    exact ⟨by simp [peek], fun _ _ => ⟨_, rfl⟩⟩

/-- A tile for which there is no room.  Its owner stops as it is to send the tile, and the other rank
waits for it for ever. -/
theorem LockRun.not_settled_of_oversize :
    ∃ (w₀ : World (ElementType.Value .i64)) (tiles : List Tensor.Blueprint) (plan : List Line)
      (hist : Rank → List (Entry (ElementType.Value .i64))) (mail : Rank → Mail) (net : Cluster)
      (st : Rank → Station (ElementType.Value .i64)),
      w₀.Common tiles plan ∧ w₀.LockRun false (fun _ => 0) hist mail net st ∧
      w₀.Halted plan false hist net st ∧ ¬w₀.Settled net st := by
  let tiles : List Tensor.Blueprint :=
    [⟨⟨[1152921504606846976], [1], 1152921504606846976, rfl⟩, 0, ⟨0⟩⟩]
  let handles : List (Handle (ElementType.Value .i64)) := tiles.map Tensor.Blueprint.handle
  let w₀ : World (ElementType.Value .i64) :=
    ⟨.ofSize 2, [{ rank := 0, size := 2, codelets := [], handles },
      { rank := 1, size := 2, codelets := [], handles }]⟩
  let moves : List (Rank × Motion (ElementType.Value .i64)) :=
    [(0, .act (.call (.transfer 0 1))), (1, .act (.call (.transfer 0 1))), (1, .take), (1, .start),
      (0, .take), (0, .begin .scheduler 0), (0, .lock 0), (0, .lock 0), (0, .lock 0), (0, .finish 0)]
  have hrank : ∀ r < w₀.size, r = 0 ∨ r = 1 := by
    intro r hr
    have : r < 2 := hr
    omega
  have hcommon : w₀.Common tiles [.transfer 0 1] := by
    refine ⟨World.alike_of_nodes rfl (by decide) (by decide) ?_, by decide⟩
    intro r hr
    rcases hrank r hr with rfl | rfl <;> exact ⟨[], [], rfl, by simp⟩
  have hcheck : (World.trace 2 false (fun _ => []) (fun _ => {}) w₀.cluster
      (w₀.stations fun _ => 0) moves).any (fun p =>
        decide (w₀.Halted [.transfer 0 1] false p.1 p.2.2.1 p.2.2.2) &&
        decide (¬w₀.Settled p.2.2.1 p.2.2.2)) = true := by
    decide +kernel
  obtain ⟨⟨hist, mail, net, st⟩, htrace, hfacts⟩ := (Option.any_eq_true _ _).mp hcheck
  simp only [Bool.and_eq_true, decide_eq_true_eq] at hfacts
  obtain ⟨hhalted, hleft⟩ := hfacts
  exact ⟨w₀, tiles, _, hist, mail, net, st, hcommon, World.LockRun.nil.trace htrace, hhalted, hleft⟩

end World

end TiledTensor

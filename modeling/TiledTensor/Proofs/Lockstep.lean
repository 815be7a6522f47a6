import TiledTensor.Proofs.Plain
import TiledTensor.Proofs.Together

/-!
# Taking turns

A program of collective calls is the same on all ranks: it has lines that all ranks come past, and
between them operations that one rank submits.  Its plain meaning is to make one *move* after the
other, each on all ranks at once and run to its end.

However the ranks really run, and whatever is on its way between them in the meantime: once all of
it is done, the buffers show what the moves leave.
-/

namespace TiledTensor

variable {α : Type}

/-! ## Moves -/

/-- One move of a program: all ranks come past a line, or one rank runs an operation. -/
inductive Move (α : Type)
  | line (l : Line)
  | op (r : Rank) (op : Op α)

/-- The line that a call is, if all ranks make it alike. -/
def Call.line? : Call α → Option Line
  | transfer h t => some (.transfer h t)
  | submit _ => none
  | flush h => some (.flush h)

namespace Move

def line? : Move α → Option Line
  | line l => some l
  | op .. => none

/-- The call that a rank makes for a move, if the move concerns it. -/
def callOn (r : Rank) : Move α → Option (Call α)
  | line (.transfer h t) => some (.transfer h t)
  | line (.flush h) => some (.flush h)
  | op q f => if q = r then some (.submit f) else none

@[simp] theorem callOn_op_self {r : Rank} {f : Op α} : callOn r (op r f) = some (.submit f) :=
  if_pos rfl

theorem callOn_op_of_ne {q r : Rank} {f : Op α} (h : q ≠ r) : callOn r (op q f) = none := if_neg h

theorem line?_of_callOn (r : Rank) (m : Move α) : (m.callOn r).bind Call.line? = m.line? := by
  cases m with
  | line l => cases l <;> rfl
  | op q f =>
    by_cases hq : q = r
    · rw [hq, callOn_op_self]
      rfl
    · rw [callOn_op_of_ne hq]
      rfl

end Move

namespace Entry

instance : Inhabited (Entry α) := ⟨.flush 0⟩

/-- The call that an entry stands for, if it is one. -/
def call? : Entry α → Option (Call α)
  | task _ f => some (.submit f)
  | guard .. => none
  | transfer h t => some (.transfer h t)
  | flush h => some (.flush h)

theorem line?_of_call? (e : Entry α) : e.call?.bind Call.line? = e.line? := by
  cases e <;> rfl

end Entry

theorem Entry.own_of_call?_eq_none {e : Entry α} (h : e.call? = none) : e.Own := by
  cases e with
  | guard => trivial
  | task | transfer | flush => cases h

/-- A block that is written through an accessor is no call. -/
theorem Entry.call?_put (id : TaskId) (block : List α) (e : Entry α) :
    (e.put id block).call? = e.call? := by
  rcases put_cases id block e with h | ⟨b, a, puts, rfl, h⟩ <;> rw [h]
  rfl

/-- The entry that an action adds to the history, as the call that it is. -/
def Act.asked : Act α → Option (Option (Call α))
  | call c => some (some c)
  | acquire .. => some none
  | _ => none

theorem Act.map_call?_record (n : Node α) (hist : List (Entry α)) (a : Act α) :
    (a.record n hist).map Entry.call? = hist.map Entry.call? ++ a.asked.toList := by
  cases a with
  | call c => cases c <;> exact List.map_append
  | acquire h a => exact List.map_append
  | put id block =>
    show (hist.map (Entry.put id block)).map Entry.call? = hist.map Entry.call? ++ []
    rw [List.map_map, List.append_nil]
    exact List.map_congr_left fun e _ => e.call?_put id block
  | release | look | take | work | arrive => exact (List.append_nil _).symm

/-- After some actions the history of a rank has the calls among them. -/
theorem World.map_call?_follow [Scalar α] {w w' : World α} {hist hist' : Rank → List (Entry α)}
    {mail mail' : Rank → Mail} {acts : List (Rank × Act α)}
    (h : w.follow hist mail acts = some (hist', mail', w')) (r : Rank) :
    (hist' r).map Entry.call? = (hist r).map Entry.call? ++
      acts.filterMap fun p => if p.1 = r then p.2.asked else none := by
  induction acts generalizing w hist mail with
  | nil =>
    cases h
    exact (List.append_nil _).symm
  | cons p acts ih =>
    obtain ⟨w'', -, hrest⟩ := Option.bind_eq_some_iff.mp h
    rw [ih hrest]
    by_cases hp : p.1 = r
    · subst hp
      rw [Function.update_self, Act.map_call?_record, List.append_assoc]
      cases hasked : p.2.asked <;> simp [hasked]
    · simp [Function.update_of_ne (Ne.symm hp), hp]

theorem lines_cons {e : Entry α} {l : Line} (h : e.line? = some l) (hist : List (Entry α)) :
    lines (e :: hist) = l :: lines hist :=
  List.filterMap_cons_some h

/-- A rank that makes its calls for some moves comes past their lines. -/
theorem lines_of_calls {hist : List (Entry α)} {moves : List (Move α)} {r : Rank}
    (h : hist.map Entry.call? = (moves.filterMap (Move.callOn r)).map some) :
    lines hist = moves.filterMap Move.line? := by
  have hentries : lines hist = (hist.map Entry.call?).filterMap (·.bind Call.line?) := by
    rw [List.filterMap_map]
    exact List.filterMap_congr fun e _ => e.line?_of_call?.symm
  rw [hentries, h, List.filterMap_map, List.filterMap_filterMap]
  exact List.filterMap_congr fun m _ => m.line?_of_callOn r

/-- All ranks after the same lines. -/
structure Stage (α : Type) where
  lines : List Line
  nodes : Rank → Node α

namespace Stage

variable [Scalar α]

/-- Makes a move. -/
def perform (s : Stage α) : Move α → Stage α
  | .line l => ⟨s.lines ++ [l], fun r => l.carryOut s.lines s.nodes r⟩
  | .op q f => { s with nodes := Function.update s.nodes q ((s.nodes q).run f) }

theorem nodes_perform_op (s : Stage α) (q : Rank) (f : Op α) :
    (s.perform (.op q f)).nodes q = (s.nodes q).run f :=
  Function.update_self ..

theorem nodes_perform_op_of_ne (s : Stage α) {q r : Rank} (f : Op α) (h : r ≠ q) :
    (s.perform (.op q f)).nodes r = s.nodes r :=
  Function.update_of_ne h ..

/-- Makes moves in order. -/
def performAll (s : Stage α) (moves : List (Move α)) : Stage α := moves.foldl perform s

theorem performAll_append (s : Stage α) (moves more : List (Move α)) :
    s.performAll (moves ++ more) = (s.performAll moves).performAll more :=
  List.foldl_append

end Stage

/-- Nothing is left to do: the task graph is empty, and no submission waits to be taken. -/
def Node.Idle (n : Node α) : Prop :=
  ∃ s, n.scheduler = some s ∧ s.graph.isEmpty = true ∧ ∀ t, .submit t ∉ n.events

/-! ## What is left in the end -/

/-- A history has one place after so many lines where a line comes. -/
theorem before_eq_of_lines {before before' after after' : List (Entry α)} {e e' : Entry α}
    (h : before ++ e :: after = before' ++ e' :: after') (he : ¬e.Own) (he' : ¬e'.Own)
    (hlines : (lines before).length = (lines before').length) : before = before' := by
  have hshort : ∀ {l m rest : List (Entry α)} {f : Entry α}, ¬f.Own → m = l ++ f :: rest →
      (lines l).length ≠ (lines m).length := by
    rintro l _ rest f hf rfl heq
    obtain ⟨line, hline⟩ := Option.ne_none_iff_exists'.mp (mt Entry.own_iff_line?.mpr hf)
    rw [lines_append, lines_cons hline, List.length_append, List.length_cons] at heq
    omega
  rcases List.append_eq_append_iff.mp h with ⟨between, rfl, hrest⟩ | ⟨between, rfl, hrest⟩
  · cases between with
    | nil => exact (List.append_nil _).symm
    | cons f between =>
      obtain ⟨rfl, -⟩ := List.cons_eq_cons.mp hrest
      exact absurd hlines (hshort he rfl)
  · cases between with
    | nil => exact List.append_nil _
    | cons f between =>
      obtain ⟨rfl, -⟩ := List.cons_eq_cons.mp hrest
      exact absurd hlines.symm (hshort he' rfl)

namespace Coherent

variable [Scalar α] {w₀ : World α} {tiles : List Tensor.Blueprint} {plan : List Line} {net : Cluster}
  {V : Nat → Option (List α)} {site : Rank → Site α}

/-- A rank that receives for a line gets what the owner shows when it comes past the line. -/
theorem value_of_line (hw : w₀.Common tiles plan) (hc : Coherent w₀ tiles plan net V site)
    (hall : ∀ r < w₀.size, ∀ k < (site r).log.length, (site r).done k) {r : Rank} (hr : r < w₀.size)
    {h : HandleId} {before after : Rank → List (Entry α)} {e : Rank → Entry α}
    (hsplit : ∀ q < w₀.size, (site q).hist = before q ++ e q :: after q)
    (hlines : ∀ q < w₀.size, (lines (before q)).length = (lines (before r)).length)
    (he : ∀ q < w₀.size, (e q).line? = some (.transfer h r)) (hne : r ≠ (w₀.node r).owner h)
    (hnone : copyLine ((w₀.node r).owner h) h r (lines (before r)) = none) :
    (w₀.node r).owner h < w₀.size ∧ V (lines (before r)).length =
      Deed.after (w₀.node ((w₀.node r).owner h)).shows
        ((w₀.node ((w₀.node r).owner h)).deeds V (before ((w₀.node r).owner h))) h := by
  have hnotOwn : ∀ q < w₀.size, ¬(e q).Own := by
    intro q hq
    rw [Entry.own_iff_line?, he q hq]
    exact Option.some_ne_none _
  have hpast : lines (site r).hist =
      lines (before r) ++ .transfer h r :: lines (after r) := by
    rw [hsplit r hr, lines_append, lines_cons (he r hr)]
  have hduty : ((lines (before r)).length, .transfer h r) ∈
      (w₀.node r).duties (site r).hist := by
    refine Node.mem_duties_of_line rfl ?_ ⟨hne, ?_, Or.inl (hw.rank r hr)⟩
    · rw [hpast, List.getElem?_append_right (Nat.le_refl _), Nat.sub_self]
      rfl
    · rw [hpast, List.take_left]
      exact hnone
  obtain ⟨k, hk⟩ := List.getElem?_of_mem hduty
  have hdone := hall r hr k ((hc.ledger r hr).length_eq ▸ lt_of_getElem?_eq_some hk)
  obtain ⟨block, hV⟩ := Option.ne_none_iff_exists'.mp (hc.received r hr k _ h hk hdone)
  obtain ⟨b, hb, hcar, -⟩ := hc.carried hw hr hk
  obtain ⟨k', hk', -, hval⟩ := hc.source_of_carried hw hb hcar hV
  have howner := hw.owner hr hb
  have ho : b.owner < w₀.size := hw.owners b (List.mem_of_getElem? hb)
  obtain ⟨before', after', hsplit', hi, -, htake, -⟩ := Node.exists_split hk'
  obtain rfl : before b.owner = before' := by
    refine before_eq_of_lines ((hsplit _ ho).symm.trans hsplit') (hnotOwn _ ho) not_false ?_
    rw [hlines _ ho]
    exact hi
  rw [howner, hV, ← hval, Node.deeds, Node.deeds, ← List.map_take, htake]
  exact ⟨ho, rfl⟩

/-- A rank has been asked for some entries of its history, and for moves of the program after them;
of its buffers it shows what a stage says. -/
structure At (w₀ : World α) (V : Nat → Option (List α)) (hist : List (Entry α)) (r : Rank)
    (s : Stage α) (moves : List (Move α)) (before after : List (Entry α)) : Prop where
  split : hist = before ++ after
  calls : after.map Entry.call? = (moves.filterMap (Move.callOn r)).map some
  lines : lines before = s.lines
  resembles : (w₀.node r).Resembles (s.nodes r)
  shows : (s.nodes r).shows = Deed.after (w₀.node r).shows ((w₀.node r).deeds V before)

/-- A rank comes past an operation of the program. -/
theorem At.op (hc : Coherent w₀ tiles plan net V site) {r q : Rank} (hr : r < w₀.size) {s : Stage α}
    {f : Op α} {moves : List (Move α)} {before after : List (Entry α)}
    (h : At w₀ V (site r).hist r s (.op q f :: moves) before after) :
    ∃ before' after', At w₀ V (site r).hist r (s.perform (.op q f)) moves before' after' := by
  by_cases hq : q = r
  · subst hq
    have hcall := h.calls
    rw [List.filterMap_cons_some Move.callOn_op_self, List.map_cons] at hcall
    obtain ⟨e, rest, rfl, he, hrest⟩ := List.map_eq_cons_iff.mp hcall
    obtain ⟨id, rfl⟩ : ∃ id, e = .task id f := by
      cases e <;> cases he
      exact ⟨_, rfl⟩
    have hmem : (.task id f : Entry α) ∈ (site q).hist := by
      rw [h.split]
      exact List.mem_append_right _ List.mem_cons_self
    have hb : ∀ u ∈ f.uses, u.1 < (s.nodes q).handles.length := by
      intro u hu
      rw [h.resembles.length]
      exact (hc.ledger q hr).bounds_of_own hmem trivial u hu
    refine ⟨before ++ [.task id f], rest, ?_, hrest, ?_, ?_, ?_⟩
    · rw [h.split, List.append_assoc, List.singleton_append]
    · rw [lines_append_singleton, h.lines]
      exact List.append_nil _
    · rw [s.nodes_perform_op]
      exact h.resembles.trans (Node.onlyMemory_run _ f)
    · rw [s.nodes_perform_op, Node.shows_run _ f hb, h.shows,
        Node.deeds_append_own (by simp [Entry.Own]), List.map_singleton,
        Deed.after_append_singleton]
      rfl
  · refine ⟨before, after, h.split, ?_, h.lines, ?_, ?_⟩
    · rw [h.calls, List.filterMap_cons_none (Move.callOn_op_of_ne hq)]
    · rw [s.nodes_perform_op_of_ne f (Ne.symm hq)]
      exact h.resembles
    · rw [s.nodes_perform_op_of_ne f (Ne.symm hq)]
      exact h.shows

/-- Where the program has a line, each rank has an entry for it. -/
theorem At.exists_entry {hist : List (Entry α)} {r : Rank} {s : Stage α} {l : Line}
    {moves : List (Move α)} {before after : List (Entry α)}
    (h : At w₀ V hist r s (.line l :: moves) before after) :
    ∃ e rest, after = e :: rest ∧ e.line? = some l ∧
      rest.map Entry.call? = (moves.filterMap (Move.callOn r)).map some := by
  have hcall := h.calls
  obtain ⟨c, hc, hcl⟩ : ∃ c, Move.callOn r (.line l : Move α) = some c ∧ c.line? = some l := by
    cases l <;> exact ⟨_, rfl, rfl⟩
  rw [List.filterMap_cons_some hc, List.map_cons] at hcall
  obtain ⟨e, rest, hafter, he, hrest⟩ := List.map_eq_cons_iff.mp hcall
  refine ⟨e, rest, hafter, ?_, hrest⟩
  rw [← e.line?_of_call?, he]
  exact hcl

/-- The ranks come past a line of the program. -/
theorem at_line (hw : w₀.Common tiles plan) (hc : Coherent w₀ tiles plan net V site)
    (hall : ∀ r < w₀.size, ∀ k < (site r).log.length, (site r).done k) {l : Line}
    {moves : List (Move α)} {s : Stage α} {before after : Rank → List (Entry α)}
    (h : ∀ r < w₀.size, At w₀ V (site r).hist r s (.line l :: moves) (before r) (after r)) :
    ∀ r < w₀.size, ∃ before' after',
      At w₀ V (site r).hist r (s.perform (.line l)) moves before' after' := by
  choose! e rest hafter he hrest using fun r hr => (h r hr).exists_entry
  have hsplit : ∀ r < w₀.size, (site r).hist = before r ++ e r :: rest r := by
    intro r hr
    rw [(h r hr).split, hafter r hr]
  intro r hr
  have htile : l.tile < (w₀.node r).handles.length := by
    have hl : l ∈ lines (site r).hist := by
      rw [hsplit r hr, lines_append, lines_cons (he r hr)]
      exact List.mem_append_right _ List.mem_cons_self
    have hlen := (hw.handles r hr).length_le
    rw [List.length_map] at hlen
    exact Nat.lt_of_lt_of_le (hw.plan l ((hc.follows r hr).subset hl)) hlen
  have hcarry := Node.shows_carryOut (h r hr).resembles (hw.rank r hr) (he r hr) htile (h r hr).shows <| by
    rintro h' rfl hne hnone
    obtain ⟨ho, hval⟩ := hc.value_of_line hw hall hr hsplit (fun q hq => by
      rw [(h q hq).lines, (h r hr).lines]) he hne hnone
    rw [hval, (h _ ho).shows]
  rw [(h r hr).lines] at hcarry
  refine ⟨before r ++ [e r], rest r, ?_, hrest r hr, ?_, hcarry.1, hcarry.2⟩
  · rw [hsplit r hr, List.append_assoc, List.singleton_append]
  · rw [lines_append_singleton, (h r hr).lines, he r hr]
    rfl

/-- When all tasks are done, every rank shows what the moves of the program leave. -/
theorem shows_performAll (hw : w₀.Common tiles plan) (hc : Coherent w₀ tiles plan net V site)
    (hall : ∀ r < w₀.size, ∀ k < (site r).log.length, (site r).done k) (moves : List (Move α))
    {s : Stage α} {before after : Rank → List (Entry α)}
    (h : ∀ r < w₀.size, At w₀ V (site r).hist r s moves (before r) (after r)) :
    ∀ r < w₀.size, (w₀.node r).Resembles ((s.performAll moves).nodes r) ∧
      ((s.performAll moves).nodes r).shows =
        Deed.after (w₀.node r).shows ((w₀.node r).deeds V (site r).hist) := by
  induction moves generalizing s before after with
  | nil =>
    intro r hr
    have hnil : after r = [] := List.map_eq_nil_iff.mp (h r hr).calls
    rw [(h r hr).split, hnil, List.append_nil]
    exact ⟨(h r hr).resembles, (h r hr).shows⟩
  | cons m moves ih =>
    have hnext : ∀ r < w₀.size, ∃ before' after',
        At w₀ V (site r).hist r (s.perform m) moves before' after' := by
      cases m with
      | op q f => exact fun r hr => (h r hr).op hc hr
      | line l => exact hc.at_line hw hall h
    choose! before' after' hnext using hnext
    exact ih hnext

end Coherent

namespace World

variable [Scalar α] {w₀ w : World α} {tiles : List Tensor.Blueprint} {moves : List (Move α)}
  {hist own rest : Rank → List (Entry α)} {mail : Rank → Mail}

/-- Once nothing is left to do, every rank shows what the moves of the program leave, one after the
other, after the ranks have done what they were asked for before.  That changes nothing about them
but what is in their buffers. -/
theorem Run.shows_performAll (hw : w₀.Common tiles (moves.filterMap Move.line?))
    (run : w₀.Run hist mail w) (hhist : ∀ r < w₀.size, hist r = own r ++ rest r)
    (hown : ∀ r < w₀.size, ∀ e ∈ own r, e.Own)
    (hcalls : ∀ r < w₀.size, (rest r).map Entry.call? = (moves.filterMap (Move.callOn r)).map some)
    (hidle : ∀ r < w₀.size, (w.node r).Idle) : ∀ r < w₀.size,
      (w₀.node r).Resembles ((w₀.node r).replay (own r)) ∧ (w.node r).shows =
        (((Stage.mk [] fun q => (w₀.node q).replay (own q)).performAll moves).nodes r).shows := by
  have hlines : ∀ r < w₀.size, lines (own r) = [] := fun r hr =>
    List.filterMap_eq_nil_iff.mpr fun e he => Entry.own_iff_line?.mp (hown r hr e he)
  have hplan : ∀ r < w₀.size, lines (hist r) = moves.filterMap Move.line? := by
    intro r hr
    rw [hhist r hr, lines_append, hlines r hr, List.nil_append, lines_of_calls (hcalls r hr)]
  obtain ⟨V, log, done, hsize, hc⟩ :=
    run.sound hw fun r hr => (hplan r hr).symm ▸ List.prefix_refl _
  have hall : ∀ r < w₀.size, ∀ k < (log r).length, done r k := by
    intro r hr
    obtain ⟨s, hs, hempty, hevents⟩ := hidle r hr
    exact (hc.ledger r hr).account.done_of_isEmpty hs hempty hevents
  have hreplay : ∀ r < w₀.size, (w₀.node r).Resembles ((w₀.node r).replay (own r)) ∧
      ((w₀.node r).replay (own r)).shows =
        Deed.after (w₀.node r).shows ((w₀.node r).deeds V (own r)) := by
    intro r hr
    have hsub : ∀ e ∈ own r, e ∈ hist r := fun e he => by
      rw [hhist r hr]
      exact List.mem_append_left _ he
    obtain ⟨hm, hshows⟩ := Node.shows_replay fun e he =>
      (hc.ledger r hr).bounds_of_own (hsub e he) (hown r hr e he)
    exact ⟨.trans (.refl _) hm, by rw [hshows, Node.deeds_of_own (hown r hr)]⟩
  have hmoves := hc.shows_performAll hw hall moves (s := ⟨[], fun q => (w₀.node q).replay (own q)⟩)
    fun r hr => ⟨hhist r hr, hcalls r hr, hlines r hr, (hreplay r hr).1, (hreplay r hr).2⟩
  intro r hr
  rw [(hmoves r hr).2]
  exact ⟨(hreplay r hr).1, (hc.ledger r hr).account.faithful.final (hall r hr)⟩

end World

end TiledTensor

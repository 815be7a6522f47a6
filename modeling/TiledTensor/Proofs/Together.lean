import TiledTensor.Proofs.Delivery

/-!
# Runs of a world

Whatever the ranks do, and in whatever order they do it, they stay coherent: `World.Run.coherent`.
-/

namespace TiledTensor

variable {α : Type} [Scalar α]

namespace Node

/-- Only owners post anything. -/
theorem Ledger.posted_eq_nil {n n₀ : Node α} {hist : List (Entry α)} {V : Nat → Option (List α)}
    {log : List (Task α)} {done : TaskId → Prop} {t : Task α} {todo : List (Task α)}
    {s : Scheduler α} {i : Nat} {e : Entry α} (net : Cluster)
    (hl : n.Ledger n₀ hist V log done (t :: todo)) (hs : n.scheduler = some s)
    (hd : (n₀.duties hist)[t.id]? = some (i, e)) (he : ∀ h r, e = .transfer h r → n₀.rank = r) :
    n.posted net t = [] := by
  obtain ⟨d, u, hd', hu, hdesc, hplan⟩ := hl.next_duty hs
  obtain rfl := Option.some.inj (hd.symm.trans hd')
  refine posted_of_job ?_
  intro h r tag hj
  rcases hplan with rfl | ⟨-, ht⟩
  · cases e with
    | task id op => exact absurd (hj.symm.trans hdesc.2) (by simp)
    | guard id h a puts => exact absurd (hj.symm.trans hdesc.2.1) (by simp)
    | flush h => exact absurd (hj.symm.trans hdesc) (by simp)
    | transfer h r =>
      obtain ⟨tag', -, hjob⟩ := hdesc
      rw [errand, if_pos (he h r rfl), hj] at hjob
      cases hjob
  · rw [ht] at hj
    cases hj

end Node

namespace Coherent

variable {w₀ : World α} {tiles : List Tensor.Blueprint} {plan : List Line} {net net' : Cluster}
  {V : Nat → Option (List α)} {site : Rank → Site α} {r : Rank} {s : Scheduler α} {t : Task α}
  {todo : List (Task α)}

/-- A rank goes on quietly while its history stays. -/
theorem quiet_same (hw : w₀.Common tiles plan) (hc : Coherent w₀ tiles plan net V site)
    (hr : r < w₀.size) {m : Node α} {d : TaskId → Prop} {l : List (Task α)}
    (hl : m.Ledger (w₀.node r) (site r).hist V (site r).log d l)
    (hq : (w₀.node r).Quiet (site r).node m (site r).hist (site r).hist V (site r).done d) :
    Coherent w₀ tiles plan net V
      (Function.update site r { site r with node := m, done := d, todo := l }) :=
  hc.quiet hw hr hl hq
    ((hc.tallies r hr).quiet hq rfl rfl (Or.inl ⟨rfl, fun _ _ _ hk => hk⟩)) (hc.follows r hr)
    (hc.targets r hr)

/-- The ranks are coherent after rank `r` has started task `k`, whether it is still alive or not. -/
structure Carries (w₀ : World α) (tiles : List Tensor.Blueprint) (plan : List Line) (net : Cluster)
    (V : Nat → Option (List α)) (site : Rank → Site α) (r : Rank) (n : Node α)
    (sent : List ((HandleId × Rank) × Payload)) (todo : List (Task α)) (k : TaskId) : Prop where
  alive : n.scheduler.isSome → ∃ V' done', Coherent w₀ tiles plan net V'
    (Function.update site r
      { site r with node := n, mail := { (site r).mail with sent }, done := done', todo }) ∧
      Gains (· = k) (site r).done done'
  dead : ¬n.scheduler.isSome → ∀ ids, Coherent w₀ tiles plan net V
    (Function.update site r
      { site r with node := n.close ids, mail := { (site r).mail with sent }, todo := [] })

/-- A task that concerns no other rank is started. -/
theorem carries_of_started (hw : w₀.Common tiles plan) (hc : Coherent w₀ tiles plan net V site)
    (hr : r < w₀.size) {n' : Node α} {posted : List ((HandleId × Rank) × Payload)}
    (hposted : posted = []) (hnet : net' = net)
    {k : TaskId}
    (hst : (w₀.node r).Started (site r).node n' (site r).hist V (site r).log (site r).done todo k) :
    Carries w₀ tiles plan net' V site r n' ((site r).mail.sent ++ posted) todo k := by
  subst hposted hnet
  rw [List.append_nil]
  constructor
  · intro halive
    obtain ⟨done', hl', hq, hends⟩ := hst.alive halive
    exact ⟨V, done', hc.quiet_same hw hr hl' hq, hends⟩
  · intro hdead ids
    obtain ⟨hl', hq⟩ := hst.dead hdead ids
    exact hc.quiet_same hw hr hl' hq

/-- The next task of a rank is started. -/
theorem start (hw : w₀.Common tiles plan) (hc : Coherent w₀ tiles plan net V site)
    (hr : r < w₀.size) (htodo : (site r).todo = t :: todo)
    (hs : (site r).node.scheduler = some s) :
    Carries w₀ tiles plan (Node.start net (site r).node t).1 V site r
      (Node.start net (site r).node t).2 ((site r).mail.sent ++ (site r).node.posted net t) todo
      t.id := by
  have hrank := hw.rank r hr
  have hl := hc.ledger r hr
  rw [htodo] at hl
  obtain ⟨⟨i, e⟩, -, hd, -⟩ := hl.next_duty hs
  have hown : e.Own → Carries w₀ tiles plan (Node.start net (site r).node t).1 V site r
      (Node.start net (site r).node t).2 ((site r).mail.sent ++ (site r).node.posted net t)
      todo t.id := by
    intro he
    obtain ⟨hnet, halive, done', hl', hq, hends⟩ := Node.Ledger.start_own net hl hs hd he
    refine hc.carries_of_started hw hr (hl.posted_eq_nil net hs hd ?_) hnet
      ⟨fun _ => ⟨done', hl', hq, hends⟩, fun hdead => absurd halive hdead⟩
    rintro h r rfl
    exact absurd he not_false
  cases e with
  | task id op => exact hown trivial
  | guard id h a puts => exact hown trivial
  | flush h =>
    obtain ⟨hnet, hst⟩ := Node.Ledger.start_flush net hl hs hd
    exact hc.carries_of_started hw hr (hl.posted_eq_nil net hs hd (by simp)) hnet hst
  | transfer h q =>
    by_cases hq : r = q
    · subst hq
      obtain ⟨hc', halive⟩ := hc.receive hw hr htodo hs hd rfl
      have hposted : (site r).node.posted net t = [] := by
        refine hl.posted_eq_nil net hs hd ?_
        intro h' r' he
        rw [hrank, (Entry.transfer.inj he).2]
      rw [hposted, List.append_nil]
      exact ⟨fun _ => ⟨V, _, hc', .refl _ _⟩, fun hdead => absurd halive hdead⟩
    · cases hsome : (site r).node.shows h with
      | none =>
        obtain ⟨hnet, hst, -⟩ :=
          Node.Ledger.start_send_of_none net hl hs hd (hrank.symm ▸ hq) hsome
        obtain ⟨tag, -, hjob, -⟩ := hl.next_transfer hs hd
        rw [Node.errand, if_neg (hrank.symm ▸ hq)] at hjob
        exact hc.carries_of_started hw hr (Node.posted_of_none hjob hsome) hnet hst
      | some block =>
        obtain ⟨hc', halive⟩ := hc.send hw hr htodo hs hd hq hsome rfl
        exact ⟨fun _ => ⟨_, _, hc', .one _ _⟩, fun hdead => absurd halive hdead⟩

/-- All tasks whose turn has come are started. -/
theorem startAll (hw : w₀.Common tiles plan) (hr : r < w₀.size) (todo : List (Task α))
    (hc : Coherent w₀ tiles plan net V site) (htodo : (site r).todo = todo)
    (hs : (site r).node.scheduler.isSome) : ∃ V' done',
      Coherent w₀ tiles plan (Node.startAll net (site r).node todo).1 V'
        (Function.update site r { site r with
          node := (Node.startAll net (site r).node todo).2
          mail.sent := (site r).mail.sent ++ (site r).node.postedAll net todo
          done := done'
          todo := [] }) := by
  induction todo generalizing net V site with
  | nil =>
    refine ⟨V, (site r).done, ?_⟩
    have hsame : ({ site r with
        node := (Node.startAll net (site r).node []).2
        mail.sent := (site r).mail.sent ++ (site r).node.postedAll net []
        todo := [] } : Site α) = site r := by
      unfold Node.startAll Node.postedAll
      rw [List.append_nil, ← htodo]
    rw [hsame, Function.update_eq_self]
    exact hc
  | cons t todo ih =>
    obtain ⟨s, hs⟩ := Option.isSome_iff_exists.mp hs
    have hstart := hc.start hw hr htodo hs
    unfold Node.startAll Node.postedAll
    dsimp only
    by_cases halive : (Node.start net (site r).node t).2.scheduler.isSome
    · obtain ⟨V', done', hc', -⟩ := hstart.alive halive
      obtain ⟨V'', done'', hc''⟩ := ih hc' (by rw [Function.update_self])
        (by rw [Function.update_self]; exact halive)
      rw [Function.update_self, Function.update_idem] at hc''
      rw [if_pos halive, if_pos halive, ← List.append_assoc]
      exact ⟨V'', done'', hc''⟩
    · rw [if_neg halive, if_neg halive, List.append_nil]
      exact ⟨V, (site r).done, hstart.dead halive _⟩

/-- The scheduler of a rank takes an event. -/
theorem take (hw : w₀.Common tiles plan) (hc : Coherent w₀ tiles plan net V site)
    (hr : r < w₀.size) (htodo : (site r).todo = []) {n' : Node α}
    (h : Node.takeEvent net (site r).node = some (net', n')) : ∃ V' done',
      Coherent w₀ tiles plan net' V' (Function.update site r { site r with
        node := n'
        mail := Act.mail net (site r).node (site r).mail .take
        done := done'
        todo := [] }) := by
  have hl := hc.ledger r hr
  rw [htodo] at hl
  obtain ⟨s, e, events, p, hs, he, hok, hl', rfl, rfl⟩ := hl.takeEvent h
  have hc' := hc.quiet_same hw hr (m := { (site r).node with events, scheduler := some p.1 })
    (d := (site r).done) hl' (.of_same rfl fun _ _ _ _ _ => Iff.rfl)
  obtain ⟨V', done', hc''⟩ := startAll hw hr p.2.started hc' (by rw [Function.update_self])
    (by rw [Function.update_self]; rfl)
  rw [Function.update_self, Function.update_idem] at hc''
  have hl'' := hc''.ledger r hr
  rw [Function.update_self] at hl''
  have hpass := hc''.quiet_same hw hr
    (m := (Node.startAll net { (site r).node with events, scheduler := some p.1 }
      p.2.started).2.pass p.2.passed) (d := done') (l := [])
    (by rw [Function.update_self]; exact hl''.pass p.2.passed)
    (by rw [Function.update_self]; exact .of_same rfl fun _ _ _ _ _ => Iff.rfl)
  rw [Function.update_self, Function.update_idem] at hpass
  refine ⟨V', done', ?_⟩
  unfold Act.mail
  rw [hs, he]
  dsimp only
  rw [hok]
  exact hpass

end Coherent

/-! ## Runs of a world -/

/-- What a rank knows between two actions. -/
def World.site (w : World α) (hist : Rank → List (Entry α)) (mail : Rank → Mail)
    (log : Rank → List (Task α)) (done : Rank → TaskId → Prop) (r : Rank) : Site α :=
  ⟨w.node r, hist r, mail r, log r, done r, []⟩

/-- A world is coherent between two actions. -/
structure World.Sound (w₀ : World α) (tiles : List Tensor.Blueprint) (plan : List Line)
    (V : Nat → Option (List α)) (hist : Rank → List (Entry α)) (mail : Rank → Mail) (w : World α)
    (log : Rank → List (Task α)) (done : Rank → TaskId → Prop) : Prop where
  size : w.size = w₀.size
  coherent : Coherent w₀ tiles plan w.cluster V (w.site hist mail log done)

section

variable {w₀ w w' : World α} {hist : Rank → List (Entry α)} {mail : Rank → Mail} {q r : Rank}
  {a : Act α}

/-- An action is one of a rank of the world. -/
theorem World.act_eq_some (h : w.act r a = some w') : r < w.size ∧ ∃ net' n',
    (w.node r).act w.cluster a = some (net', n') ∧ w'.cluster = net' ∧ w'.size = w.size ∧
      w'.node = Function.update w.node r n' := by
  unfold World.act at h
  split at h
  · rename_i hr
    obtain ⟨⟨net', n'⟩, hact, rfl⟩ := Option.map_eq_some_iff.mp h
    refine ⟨hr, net', n', hact, rfl, List.length_set .., ?_⟩
    funext q
    unfold World.node World.setNode
    dsimp only
    rw [List.getD_eq_getElem?_getD]
    by_cases hq : q = r
    · subst hq
      rw [Function.update_self, List.getElem?_set_self hr]
      rfl
    · rw [Function.update_of_ne hq, List.getElem?_set_ne (Ne.symm hq),
        List.getD_eq_getElem?_getD]
  · cases h

end

namespace Coherent

variable {w₀ : World α} {tiles : List Tensor.Blueprint} {plan : List Line} {net net' : Cluster}
  {V : Nat → Option (List α)} {site : Rank → Site α} {r : Rank}

/-- A rank does something while its scheduler may have tasks left to start, and the ranks stay
coherent. -/
theorem act_of_ne_take (hw : w₀.Common tiles plan) (hc : Coherent w₀ tiles plan net V site)
    (hr : r < w₀.size) {a : Act α} {n' : Node α} (h : (site r).node.act net a = some (net', n'))
    (htake : a ≠ .take) (hf : lines (a.record (site r).node (site r).hist) <+: plan) :
    ∃ log' done', Coherent w₀ tiles plan net' V (Function.update site r
      ⟨n', a.record (site r).node (site r).hist, a.mail net (site r).node (site r).mail, log',
        done', (site r).todo⟩) ∧
      Gains (fun k => a.Ends (site r).node k) (site r).done done' := by
  have hl := hc.ledger r hr
  by_cases harrive : ∃ i, a = .arrive i
  · obtain ⟨i, rfl⟩ := harrive
    obtain ⟨b, payload, hb, hreceipt, hc'⟩ := hc.arrive hw hr h
    refine ⟨(site r).log, fun k => (site r).done k ∨ k = b.id, ?_, ?_⟩
    swap
    · exact ⟨fun _ => Or.inl, fun k hk => hk.imp_right fun h => ⟨b, hb, h.symm⟩⟩
    unfold Act.mail
    dsimp only
    rw [hb]
    dsimp only
    rw [hreceipt]
    exact hc'
  -- what is left concerns no other rank
  have hacts := Node.acts_of_act h
  have harr : ∀ i, a ≠ .arrive i := fun i hi => harrive ⟨i, hi⟩
  obtain ⟨rfl, log', done', hl', hq, hends⟩ := hl.act hacts htake harr
  obtain ⟨hsent, htaken, hasked⟩ := hl.mail_of_act (m := (site r).mail) hl' hacts htake harr
  have htargets := hl.targets_of_act hacts (by
    rw [hw.size r hr]
    exact hc.targets r hr)
  rw [hw.size r hr] at htargets
  exact ⟨log', done', hc.quiet hw hr hl' hq ((hc.tallies r hr).quiet hq hsent htaken hasked) hf
    htargets, hends⟩

/-- A rank does something, and the ranks stay coherent. -/
theorem act (hw : w₀.Common tiles plan) (hc : Coherent w₀ tiles plan net V site) (hr : r < w₀.size)
    (htodo : (site r).todo = []) {a : Act α} {n' : Node α}
    (h : (site r).node.act net a = some (net', n'))
    (hf : lines (a.record (site r).node (site r).hist) <+: plan) : ∃ V' log' done',
      Coherent w₀ tiles plan net' V' (Function.update site r
        ⟨n', a.record (site r).node (site r).hist, a.mail net (site r).node (site r).mail, log',
          done', []⟩) := by
  by_cases htake : a = .take
  · subst htake
    obtain ⟨V', done', hc'⟩ := hc.take hw hr htodo h
    exact ⟨V', _, done', hc'⟩
  · obtain ⟨log', done', hc', -⟩ := hc.act_of_ne_take hw hr h htake hf
    rw [htodo] at hc'
    exact ⟨V, log', done', hc'⟩

/-- Ranks of which nothing has been asked are coherent. -/
theorem fresh (hw : w₀.Common tiles plan) : Coherent w₀ tiles plan w₀.cluster (fun _ => none)
    fun r => ⟨w₀.node r, [], {}, [], fun _ => False, []⟩ := by
  constructor
  case ledger =>
    intro r hr
    exact (hw.fresh r hr).ledger _
  case tallies =>
    intro r _
    exact Mail.Tallies.nil _ _
  case follows =>
    intro r _
    exact List.nil_prefix
  case targets =>
    intro r _ h t ht
    cases ht
  case shipped =>
    intro r _ k i h t _ hd
    cases hd
  case source =>
    intro i b hb
    cases hb
  case received =>
    intro r _ k i h hd
    cases hd
  case inOrder =>
    intro h b _ t i j _ _ _ hj
    exact absurd rfl hj
  case wire =>
    rw [hw.cluster]
    refine (Wire.nil w₀.size tiles plan _ _).quiet ?_ (fun _ _ _ _ _ hd => hd) fun _ _ _ _ => Iff.rfl
    intro r hr
    exact (hw.fresh r hr).arrivals

end Coherent

omit [Scalar α] in
/-- Before an action of one rank all ranks were as far in the program or less far. -/
theorem lines_before_of_update {hist : Rank → List (Entry α)} {plan : List Line} {size : Nat}
    {r : Rank} {n : Node α} {a : Act α}
    (hf : ∀ q < size, lines (Function.update hist r (a.record n (hist r)) q) <+: plan) :
    ∀ q < size, lines (hist q) <+: plan := by
  intro q hq
  refine List.IsPrefix.trans ?_ (hf q hq)
  by_cases hqr : q = r
  · subst hqr
    rw [Function.update_self]
    exact lines_record _ _ _
  · exact (Function.update_of_ne hqr _ hist).symm ▸ List.prefix_refl _

/-- Whatever the ranks do, in whatever order, they stay coherent. -/
theorem World.Run.sound {w₀ w : World α} {tiles : List Tensor.Blueprint} {plan : List Line}
    {hist : Rank → List (Entry α)} {mail : Rank → Mail} (hw : w₀.Common tiles plan)
    (run : w₀.Run hist mail w) (hf : ∀ r < w₀.size, lines (hist r) <+: plan) :
    ∃ V log done, w₀.Sound tiles plan V hist mail w log done := by
  induction run with
  | nil => exact ⟨_, _, _, rfl, .fresh hw⟩
  | @snoc hist mail w w' r a run step ih =>
    obtain ⟨hr, net', n', hact, hcluster, hsize, hnode⟩ := World.act_eq_some step
    have hbefore := lines_before_of_update hf
    obtain ⟨V, log, done, hsame, hc⟩ := ih hbefore
    rw [hsame] at hr
    have hplan := hf r hr
    rw [Function.update_self] at hplan
    obtain ⟨V', log', done', hc'⟩ := hc.act hw hr rfl hact hplan
    refine ⟨V', Function.update log r log', Function.update done r done', hsize.trans hsame, ?_⟩
    have hsite : w'.site (Function.update hist r (a.record (w.node r) (hist r)))
        (Function.update mail r (a.mail w.cluster (w.node r) (mail r)))
        (Function.update log r log') (Function.update done r done') =
        Function.update (w.site hist mail log done) r
          ⟨n', a.record (w.node r) (hist r), a.mail w.cluster (w.node r) (mail r), log', done',
            []⟩ := by
      funext q
      unfold World.site
      rw [hnode]
      by_cases hq : q = r
      · subst hq
        simp only [Function.update_self]
      · simp only [Function.update_of_ne hq]
    rw [hsite, hcluster]
    exact hc'

end TiledTensor

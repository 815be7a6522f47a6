import TiledTensor.Proofs.Bystanders
import TiledTensor.Proofs.Holdings

/-!
# The tasks that retire tags

A tensor that is given up leaves a task behind that retires its tags.  As long as the scheduler of a
rank runs, that task comes after every other task on the buffers of the tensor, and no task that is
queued later is on them, so nobody waits for it (`Diary.Accounts`).
-/

namespace TiledTensor

variable {α : Type}

/-- The task retires the tags of a tensor. -/
structure Tensor.Retires (t : Tensor) (u : Task α) : Prop where
  uses : u.uses = t.handles.map fun h => (h, .write)
  job : u.job = .retire t.tags

/-- The tasks that retire tags of tensors that were given up. -/
def Diary.retired (d : Diary α) : List TaskId := d.drops.map (·.1)

/-- What a rank has given its scheduler, on its first `m` buffers. -/
structure Diary.Accounts (first : Tag) (d : Diary α) (tasks : List (Task α)) (m : Nat) : Prop where
  drops : ∀ e ∈ d.drops, ∃ u ∈ tasks, u.id = e.1 ∧ e.2.Retires u
  retires : ∀ u ∈ tasks, ∀ tags, u.job = .retire tags → u.id ∈ d.retired
  spares : Roster.Spares d.retired (tasks.map Task.entry)
  asked : ∀ e ∈ d.mail.asked, ∃ u ∈ tasks, u.id = e.2 ∧ ∃ src tag, u.job = .receive e.1 src tag
  tagged : ∀ u ∈ tasks, ∀ h r tag, u.job = .send h r tag ∨ u.job = .receive h r tag →
    tag = ⟨first.val + h⟩
  bound : ∀ u ∈ tasks, ∀ x ∈ u.uses, x.1 < m

/-- What an action adds to the receives that a rank has queued. -/
theorem Act.asked_mail [Scalar α] (a : Act α) (net : Cluster) (n : Node α) (m : Mail) :
    (a.mail net n m).asked = m.asked ∨
      ∃ h, a = .call (.transfer h n.rank) ∧ (n.transfer h n.rank).1.nextTask ≠ n.nextTask ∧
        (a.mail net n m).asked = m.asked ++ [(h, n.nextTask)] := by
  cases a with
  | call c =>
    cases c with
    | submit op => exact Or.inl rfl
    | transfer h t =>
      unfold mail
      dsimp only
      split
      · rename_i hqueues
        obtain ⟨rfl, hqueues⟩ := hqueues
        exact Or.inr ⟨h, rfl, hqueues, rfl⟩
      · exact Or.inl rfl
    | flush h => exact Or.inl rfl
  | acquire h b => exact Or.inl rfl
  | release k => exact Or.inl rfl
  | look k => exact Or.inl rfl
  | put k block => exact Or.inl rfl
  | take =>
    unfold mail
    dsimp only
    split
    · split <;> exact Or.inl rfl
    · exact Or.inl rfl
  | work i => exact Or.inl rfl
  | arrive i =>
    unfold mail
    dsimp only
    split
    · split <;> exact Or.inl rfl
    · exact Or.inl rfl

namespace Diary.Accounts

variable {first : Tag} {d d' : Diary α} {tasks : List (Task α)} {m m' i : Nat} {n n' : Node α}
  {t t' : Tensor} {u v : Task α} {h : HandleId} {k : TaskId}

theorem nil (first next : Tag) (m : Nat) :
    ({ next } : Diary α).Accounts first ([] : List (Task α)) m := by
  refine ⟨fun e he => ?_, fun u hu => ?_, fun x y hxy => hxy.elim, fun e he => ?_, fun u hu => ?_,
    fun u hu => ?_⟩
  · cases he
  · cases hu
  · cases he
  · cases hu
  · cases hu

/-- Nothing is queued or given up. -/
theorem of_parts (ha : d.Accounts first tasks m) (hdrops : d'.drops = d.drops)
    (hasked : d'.mail.asked = d.mail.asked) (hm : m ≤ m') : d'.Accounts first tasks m' := by
  have hretired : d'.retired = d.retired := congrArg (List.map Prod.fst) hdrops
  refine ⟨hdrops ▸ ha.drops, hretired ▸ ha.retires, hretired ▸ ha.spares, hasked ▸ ha.asked, ha.tagged,
    fun u hu x hx => Nat.lt_of_lt_of_le (ha.bound u hu x hx) hm⟩

/-- The task with the number of one that retires tags is that task. -/
theorem retires_of_mem (ha : d.Accounts first tasks m) (hn : (tasks.map (·.id)).Nodup)
    (he : (k, t) ∈ d.drops) (hu : u ∈ tasks) (hid : u.id = k) : t.Retires u := by
  obtain ⟨v, hv, hvid, hretires⟩ := ha.drops _ he
  obtain rfl := List.inj_on_of_nodup_map hn hu hv (hid.trans hvid.symm)
  exact hretires

theorem exists_drop (hu : k ∈ d.retired) : ∃ t, (k, t) ∈ d.drops := by
  obtain ⟨⟨k, t⟩, he, rfl⟩ := List.mem_map.mp hu
  exact ⟨t, he⟩

/-- A task is queued that uses no buffer of a tensor that was given up. -/
theorem spares_append (ha : d.Accounts first tasks m) (hn : (tasks.map (·.id)).Nodup)
    (hu : ∀ x ∈ u.uses, ∀ t ∈ d.drops.map (·.2), x.1 ∉ t.handles) :
    Roster.Spares d.retired ((tasks ++ [u]).map Task.entry) := by
  rw [List.map_append]
  intro x y hxy hx
  rcases Before.append_singleton_iff.mp hxy with hxy | ⟨hin, rfl⟩
  · exact ha.spares x y hxy hx
  · obtain ⟨v, hv, rfl⟩ := List.mem_map.mp hin
    obtain ⟨t, ht⟩ := exists_drop hx
    have huses := (ha.retires_of_mem hn ht hv rfl).uses
    rintro ⟨h, a, b, ha, hb, -⟩
    have ha : (h, a) ∈ v.uses := ha
    rw [huses] at ha
    obtain ⟨h', hh, heq⟩ := List.mem_map.mp ha
    obtain ⟨rfl, -⟩ := Prod.mk.inj heq
    exact hu _ hb t (List.mem_map_of_mem (f := Prod.snd) ht) hh

/-- An action queues a task. -/
theorem order (ha : d.Accounts first tasks m) (hn : (tasks.map (·.id)).Nodup)
    (hdrops : d'.drops = d.drops)
    (hasked : ∀ e ∈ d'.mail.asked, e ∈ d.mail.asked ∨
      e.2 = u.id ∧ ∃ src tag, u.job = .receive e.1 src tag)
    (hu : ∀ x ∈ u.uses, x.1 < m ∧ ∀ t ∈ d.drops.map (·.2), x.1 ∉ t.handles)
    (hretire : ∀ tags, u.job ≠ .retire tags)
    (htag : ∀ h r tag, u.job = .send h r tag ∨ u.job = .receive h r tag → tag = ⟨first.val + h⟩) :
    d'.Accounts first (tasks ++ [u]) m := by
  have hretired : d'.retired = d.retired := congrArg (List.map Prod.fst) hdrops
  have hleft : ∀ {v}, v ∈ tasks → v ∈ tasks ++ [u] := List.mem_append_left [u]
  have hright : u ∈ tasks ++ [u] := List.mem_append_right tasks List.mem_cons_self
  constructor
  case drops =>
    intro e he
    obtain ⟨v, hv, hretires⟩ := ha.drops e (hdrops ▸ he)
    exact ⟨v, hleft hv, hretires⟩
  case retires =>
    intro v hv tags hjob
    rcases List.mem_append.mp hv with hv | hv
    · exact hretired ▸ ha.retires v hv tags hjob
    · obtain rfl := List.mem_singleton.mp hv
      exact absurd hjob (hretire tags)
  case spares => exact hretired ▸ ha.spares_append hn fun x hx => (hu x hx).2
  case asked =>
    intro e he
    rcases hasked e he with he | ⟨hid, hjob⟩
    · obtain ⟨v, hv, hrest⟩ := ha.asked e he
      exact ⟨v, hleft hv, hrest⟩
    · exact ⟨u, hright, hid.symm, hjob⟩
  case tagged =>
    intro v hv
    rcases List.mem_append.mp hv with hv | hv
    · exact ha.tagged v hv
    · exact List.mem_singleton.mp hv ▸ htag
  case bound =>
    intro v hv
    rcases List.mem_append.mp hv with hv | hv
    · exact ha.bound v hv
    · exact fun x hx => (hu x (List.mem_singleton.mp hv ▸ hx)).1

/-- A tensor is given up. -/
theorem drop (ha : d.Accounts first tasks m) (hn : ((tasks ++ [u]).map (·.id)).Nodup)
    (hid : u.id = n.nextTask) (hu : t.Retires u) (hm : ∀ h ∈ t.handles, h < m)
    (hapart : ∀ t' ∈ d.drops.map (·.2), ∀ h ∈ t.handles, h ∉ t'.handles) :
    (d.drop n i t).Accounts first (tasks ++ [u]) m := by
  rw [List.map_append] at hn
  have hold : (tasks.map (·.id)).Nodup := hn.of_append_left
  have hfresh : ∀ v ∈ tasks, v.id ≠ u.id := fun v hv heq =>
    List.disjoint_of_nodup_append hn (List.mem_map_of_mem hv) (heq ▸ List.mem_cons_self)
  have hleft : ∀ {v}, v ∈ tasks → v ∈ tasks ++ [u] := List.mem_append_left [u]
  have hright : u ∈ tasks ++ [u] := List.mem_append_right tasks List.mem_cons_self
  have hretired : (d.drop n i t).retired = d.retired ++ [u.id] := by
    rw [hid]
    exact List.map_append
  have huses : ∀ x ∈ u.uses, x.1 ∈ t.handles := by
    intro x hx
    rw [hu.uses] at hx
    obtain ⟨h, hh, rfl⟩ := List.mem_map.mp hx
    exact hh
  constructor
  case drops =>
    intro e he
    rcases List.mem_append.mp he with he | he
    · obtain ⟨v, hv, hretires⟩ := ha.drops e he
      exact ⟨v, hleft hv, hretires⟩
    · obtain rfl := List.mem_singleton.mp he
      exact ⟨u, hright, hid, hu⟩
  case retires =>
    intro v hv tags hjob
    rw [hretired]
    rcases List.mem_append.mp hv with hv | hv
    · exact List.mem_append_left _ (ha.retires v hv tags hjob)
    · obtain rfl := List.mem_singleton.mp hv
      exact List.mem_append_right _ List.mem_cons_self
  case spares =>
    intro x y hxy hx
    rw [hretired] at hx
    rcases List.mem_append.mp hx with hx | hx
    · exact ha.spares_append hold (fun x hx t' ht' => hapart t' ht' _ (huses x hx)) x y hxy hx
    · -- nothing comes after the last task
      rw [List.map_append] at hxy
      have hin : x ∈ tasks.map Task.entry := by
        rcases Before.append_singleton_iff.mp hxy with hxy | ⟨hin, -⟩
        · exact hxy.mem_left
        · exact hin
      obtain ⟨v, hv, rfl⟩ := List.mem_map.mp hin
      exact absurd (List.mem_singleton.mp hx) (hfresh v hv)
  case asked =>
    intro e he
    obtain ⟨v, hv, hrest⟩ := ha.asked e he
    exact ⟨v, hleft hv, hrest⟩
  case tagged =>
    intro v hv
    rcases List.mem_append.mp hv with hv | hv
    · exact ha.tagged v hv
    · obtain rfl := List.mem_singleton.mp hv
      rw [hu.job]
      exact fun h r tag hjob => by cases hjob <;> contradiction
  case bound =>
    intro v hv
    rcases List.mem_append.mp hv with hv | hv
    · exact ha.bound v hv
    · obtain rfl := List.mem_singleton.mp hv
      exact fun x hx => hm _ (huses x hx)

end Diary.Accounts

/-! ## Tenures -/

namespace Node

variable {first : Tag} {d d' : Diary α} {n n' : Node α} {s s' : Scheduler α} {p : Tending α}
  {net net' : Cluster}

theorem wait_eq (h : n.scheduler.isSome) : n.wait.1 = Node.post
    { n with nextBarrier := n.nextBarrier + 1, barriers := n.barriers.put n.nextBarrier .waiting }
    (.wait n.nextBarrier) := by
  unfold Node.wait
  rw [if_pos h]

/-- What holds of a rank whose scheduler runs, and of the tasks that it has been given. -/
structure Tended (first : Tag) (d : Diary α) (n : Node α) (s : Scheduler α) : Prop where
  kept : Kept d.record [] n s
  accounts : d.Accounts first (n.given d.record) n.handles.length

namespace Tended

variable [Scalar α]

theorem act {a : Act α} (ht : n.Tended first d s) (hstocked : n.Stocked first d)
    (known : ∀ h ∈ a.happening.names, ∃ t ∈ d.held, h ∈ t.handles)
    (step : n.act net a = some (net', n')) (hs' : n'.scheduler = some s') :
    n'.Tended first (d.act net n a n') s' := by
  have hundergo := undergo_of_act step
  have hk := ht.kept.undergo hundergo hs'
  have hlen : n'.handles.length = n.handles.length := length_of_setting (setting_of_undergo hundergo)
  refine ⟨hk, ?_⟩
  rw [hlen]
  by_cases ha : a.happening.isCall = true
  · have hnote : (d.act net n a n').record = d.record := Scene.note_of_isCall ha
    rw [hnote, given]
    cases queueing_of_call (ht.kept.scheduler ▸ rfl) ha step with
    | nothing submits nextTask =>
      rw [submits]
      refine ht.accounts.of_parts rfl ?_ (Nat.le_refl _)
      refine (Act.asked_mail a net n d.mail).resolve_right ?_
      rintro ⟨h, rfl, hqueues, -⟩
      obtain ⟨-, -, hok⟩ := call_of_act step
      have hnode : (n.transfer h n.rank).1 = n' := congrArg Prod.fst hok
      exact hqueues (hnode ▸ nextTask)
    | task u orders submits nextTask =>
      rw [submits, ← List.append_assoc]
      have hheld : ∀ x ∈ u.uses, ∃ t ∈ d.held, x.1 ∈ t.handles := fun x hx => known _ (orders.uses x hx)
      refine ht.accounts.order ht.kept.nodup rfl (fun e he => ?_) (fun x hx => ?_) orders.job ?_
      · rcases Act.asked_mail a net n d.mail with hsame | ⟨h, rfl, -, hnew⟩
        · exact Or.inl (hsame ▸ he)
        · have he : e ∈ (Act.mail net n d.mail (.call (.transfer h n.rank))).asked := he
          rw [hnew] at he
          refine (List.mem_append.mp he).imp_right fun he => ?_
          obtain rfl := List.mem_singleton.mp he
          exact ⟨orders.id.symm, orders.asks h rfl⟩
      · obtain ⟨t, hin, hh⟩ := hheld x hx
        exact ⟨(hstocked.placed_of_held hin).lt hh, fun t' ht' => hstocked.notMem_drop hin hh ht'⟩
      · intro h r tag hjob
        have htag := orders.tagged h r tag hjob
        have hh : h < n.handles.length := by
          refine Nat.lt_of_not_le fun hle => ?_
          unfold handle at htag
          rw [List.getD_eq_getElem?_getD, List.getElem?_eq_none hle] at htag
          cases htag
        rw [hstocked.tagged h hh] at htag
        exact (Option.some.inj htag).symm
  · have hcall : a.happening.isCall = false := Bool.eq_false_iff.mpr ha
    have hgiven : n'.given (d.act net n a n').record = n.given d.record :=
      given_of_own ht.kept hcall hundergo hs'
    rw [hgiven]
    refine ht.accounts.of_parts rfl ?_ (Nat.le_refl _)
    refine (Act.asked_mail a net n d.mail).resolve_right ?_
    rintro ⟨h, rfl, -, -⟩
    cases hcall

/-- A call that queues no task. -/
theorem of_call {x : Happening α} (ht : n.Tended first d s) (hx : x.isCall = true)
    (h : n.undergo net x = some (net', n')) (hsubmits : submits n'.events = submits n.events)
    (hs' : n'.scheduler = some s') : n'.Tended first d s' := by
  have hk := ht.kept.undergo h hs'
  rw [Scene.note_of_isCall hx] at hk
  refine ⟨hk, ?_⟩
  rw [length_of_setting (setting_of_undergo h), given, hsubmits]
  exact ht.accounts

theorem tend (ht : n.Tended first d s) (hstocked : n.Stocked first d) (h : n.Tends net d p net' n' d')
    (hs' : n'.scheduler = some s') : n'.Tended first d' s' := by
  cases h with
  | act a known step => exact ht.act hstocked known step hs'
  | make tiling owners ok =>
    obtain ⟨tiles, -, -, -, -, rfl⟩ := makeTensor_eq_ok ok
    obtain rfl : s = s' := Option.some.inj (ht.kept.scheduler.symm.trans hs')
    refine ⟨ht.kept.append _ ht.accounts.bound fun k c hc => (hstocked.licit.accessors k c hc).1, ?_⟩
    refine ht.accounts.of_parts rfl rfl ?_
    rw [List.length_append]
    exact Nat.le_add_right _ _
  | @drop t i held runs =>
    have hin := List.mem_of_getElem? held
    have hplaced := hstocked.placed_of_held hin
    have hundergo := hstocked.undergo_of_drop held net
    have hk := ht.kept.undergo hundergo hs'
    rw [Scene.note_of_isCall rfl] at hk
    refine ⟨hk, ?_⟩
    rw [length_of_setting (setting_of_undergo hundergo)]
    have hsubmits : (n.dropTensor t).given d.record = n.given d.record ++
        [⟨n.nextTask, "retire " ++ t.tags.first.text ++ ".." ++ t.tags.stop.text,
          t.handles.map fun h => (h, .write), .retire t.tags⟩] := by
      rw [hplaced.dropTensor, given, Node.retire, enqueue_events runs, submits_append, given,
        List.append_assoc]
      rfl
    have hnodup := hk.nodup
    change ((given _ _).map _).Nodup at hnodup
    show (d.drop n i t).Accounts first ((n.dropTensor t).given d.record) _
    rw [hsubmits] at hnodup ⊢
    refine ht.accounts.drop hnodup rfl ⟨rfl, rfl⟩ (fun h hh => hplaced.lt hh) fun t' ht' h hh => ?_
    exact hstocked.notMem_drop hin hh ht'
  | wait =>
    refine ht.of_call rfl (rfl : n.undergo net .wait = some (net, n.wait.1)) ?_ hs'
    rw [wait_eq (ht.kept.scheduler ▸ rfl), post_events { n with nextBarrier := _, barriers := _ } _
      (ht.kept.scheduler ▸ rfl), submits_append]
    exact List.append_nil _
  | leave b => exact ht.of_call rfl (rfl : n.undergo net (.leave b) = some (net, n.leave b)) rfl hs'

end Tended

end Node

end TiledTensor

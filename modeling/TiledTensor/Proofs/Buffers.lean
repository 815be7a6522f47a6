import TiledTensor.Proofs.Serial
import TiledTensor.Proofs.Starts

/-!
# What tasks do to buffers

`Node.shows` forgets where the memory of a rank is allocated and keeps what can be read.  Opening a
buffer does not change it, and running an operation does to it what `Store.run` says: open the
buffers in order, apply the codelet, store what it returns.  Since `Store.run` reads and writes
nothing but the buffers of the operation, an operation is a deed.
-/

namespace TiledTensor

variable {α : Type}

/-! ## What can be read -/

theorem Handle.store_memory_ne_absent {e : Handle α} (he : e.memory ≠ .absent) (block : List α) :
    (e.store block).memory ≠ .absent := by
  unfold Handle.store
  cases hm : e.memory with
  | absent => exact absurd hm he
  | present old => simp
  | poisoned => simp [hm]

namespace Node

/-- Buffers that have memory, or had it when they were poisoned. -/
def Opened (n : Node α) (h : HandleId) : Prop := (n.handle h).memory ≠ .absent

theorem opened_setHandle {n : Node α} {h j : HandleId} {e : Handle α} (hj : n.Opened j)
    (he : (n.handle h).memory ≠ .absent → e.memory ≠ .absent) : (n.setHandle h e).Opened j := by
  unfold Opened
  rw [handle_setHandle]
  split
  · rename_i hjh
    exact he (hjh.1 ▸ hj)
  · exact hj

end Node

section

variable [Scalar α]

namespace Handle

/-- The elements of a buffer that has just been allocated; nothing if the memory is not to be
had. -/
def blank (e : Handle α) : Option (List α) :=
  if allocatable (e.count * Scalar.size α) then some (List.replicate e.count Scalar.zero) else none

/-- What can be read from a buffer. -/
def shows (e : Handle α) : Option (List α) :=
  match e.memory with
  | .absent => e.blank
  | .present block => some block
  | .poisoned => none

theorem access_snd (e : Handle α) : e.access.2.toOption = e.shows := by
  cases hm : e.memory with
  | absent =>
    by_cases ha : allocatable (e.count * Scalar.size α) = true
    · simp [access, shows, blank, hm, ha, Except.toOption]
    · simp [access, shows, blank, hm, ha, Except.toOption]
  | present block => simp [access, shows, hm, Except.toOption]
  | poisoned => simp [access, shows, hm, Except.toOption]

/-- Opening a buffer allocates it, but shows nothing new. -/
theorem shows_access (e : Handle α) : e.access.1.shows = e.shows := by
  cases hm : e.memory with
  | absent =>
    by_cases ha : allocatable (e.count * Scalar.size α) = true
    · simp [access, shows, blank, hm, ha]
    · simp [access, shows, blank, hm, ha]
  | present block => simp [access, shows, hm]
  | poisoned => simp [access, shows, hm]

theorem access_memory_ne_absent (e : Handle α) : e.access.1.memory ≠ .absent := by
  cases hm : e.memory with
  | absent =>
    by_cases ha : allocatable (e.count * Scalar.size α) = true
    · simp [access, hm, ha]
    · simp [access, hm, ha]
  | present block => simp [access, hm]
  | poisoned => simp [access, hm]

theorem shows_store {e : Handle α} (he : e.memory ≠ .absent) (block : List α) :
    (e.store block).shows = e.shows.map (overlay block) := by
  unfold store shows
  cases hm : e.memory with
  | absent => exact absurd hm he
  | present old => rfl
  | poisoned => rw [hm]; rfl

@[simp] theorem shows_poison (e : Handle α) : e.poison.shows = none := rfl

end Handle

namespace Node

/-- What can be read from the buffers of a rank. -/
def shows (n : Node α) : Store α := fun h => (n.handle h).shows

theorem shows_setHandle {n : Node α} {h : HandleId} (hh : h < n.handles.length) (e : Handle α) :
    (n.setHandle h e).shows = n.shows.set h e.shows := by
  funext j
  unfold shows Store.set
  rw [handle_setHandle]
  by_cases hj : j = h
  · rw [if_pos ⟨hj, hh⟩, if_pos hj]
  · rw [if_neg fun h => hj h.1, if_neg hj]

/-- Nothing new is shown if a buffer is replaced by one that shows the same. -/
theorem shows_setHandle_of_eq {n : Node α} {h : HandleId} {e : Handle α}
    (he : e.shows = (n.handle h).shows) : (n.setHandle h e).shows = n.shows := by
  funext j
  unfold shows
  rw [handle_setHandle]
  split
  · rename_i hj
    rw [he, hj.1]
  · rfl

@[simp] theorem shows_openHandle (n : Node α) (h : HandleId) : (n.openHandle h).1.shows = n.shows :=
  shows_setHandle_of_eq (Handle.shows_access _)

theorem openHandle_snd_toOption (n : Node α) (h : HandleId) :
    (n.openHandle h).2.toOption = n.shows h :=
  Handle.access_snd _

theorem openHandle_eq_ok {n m : Node α} {h : HandleId} {block : List α}
    (ho : n.openHandle h = (m, .ok block)) : m = (n.openHandle h).1 ∧ n.shows h = some block := by
  have := openHandle_snd_toOption n h
  rw [ho] at this ⊢
  exact ⟨rfl, this.symm⟩

theorem openHandle_eq_error {n m : Node α} {h : HandleId} {f : Fault}
    (ho : n.openHandle h = (m, .error f)) : m = (n.openHandle h).1 ∧ n.shows h = none := by
  have := openHandle_snd_toOption n h
  rw [ho] at this ⊢
  exact ⟨rfl, this.symm⟩

@[simp] theorem shows_markWritten (n : Node α) (uses : List (HandleId × Access)) :
    (n.markWritten uses).shows = n.shows := by
  induction uses generalizing n with
  | nil => rfl
  | cons u uses ih =>
    rw [markWritten, List.foldl_cons]
    by_cases hw : u.2.writes = true
    · rw [if_pos hw]
      exact (ih _).trans (shows_setHandle_of_eq rfl)
    · rw [if_neg hw]
      exact ih n

end Node

end

/-! ## Operations -/

theorem Op.mem_uses_iff {op : Op α} {h : HandleId} {a : Access} :
    (h, a) ∈ op.uses ↔ .data h a ∈ op.operands := by
  unfold Op.uses
  rw [List.mem_filterMap]
  constructor
  · rintro ⟨o, ho, hu⟩
    cases o with
    | data j b =>
      simp only [Operand.use?, Option.some.injEq, Prod.mk.injEq] at hu
      obtain ⟨rfl, rfl⟩ := hu
      exact ho
    | scratch bytes => cases hu
  · intro ho
    exact ⟨_, ho, rfl⟩

namespace Store

/-- Opens the buffers of an operation in order. Where one cannot be opened, those opened for writing
before it are poisoned. -/
def openAll (s : Store α) : List Operand → Store α × Option (List (View α))
  | [] => (s, some [])
  | .scratch bytes :: operands =>
    if allocatable ((bytes + 7) / 8 * 8) then
      let (s, views) := openAll s operands
      (s, views.map (.scratch bytes :: ·))
    else (s, none)
  | .data h a :: operands =>
    match s h with
    | none => (s, none)
    | some block =>
      match openAll s operands with
      | (s, some views) => (s, some ((if a.writes then .exclusive block else .shared block) :: views))
      | (s, none) => (if a.writes then s.set h none else s, none)

/-- Stores what an operation left in the buffers that it may write. -/
def storeAll (s : Store α) : List Operand → List (View α) → Store α
  | .data h a :: operands, v :: views =>
    let s := match v with
      | .exclusive block => if a.writes then s.set h ((s h).map (overlay block)) else s
      | _ => s
    storeAll s operands views
  | _ :: operands, _ :: views => storeAll s operands views
  | _, _ => s

/-- Poisons the buffers that an operation may write. -/
def poisonAll (s : Store α) (uses : List (HandleId × Access)) : Store α :=
  uses.foldl (fun s u => if u.2.writes then s.set u.1 none else s) s

/-- Runs an operation. -/
def run (s : Store α) (op : Op α) : Store α :=
  match s.openAll op.operands with
  | (s, none) => s
  | (s, some views) =>
    match op.codelet views with
    | .ok views => s.storeAll op.operands views
    | .error _ => s.poisonAll op.uses

/-- A buffer that an operation only reads is opened with what it shows. -/
theorem view_of_openAll {s : Store α} {operands : List Operand} {views : List (View α)}
    (h : (s.openAll operands).2 = some views) {k : Nat} {b : HandleId} {a : Access}
    (hk : operands[k]? = some (.data b a)) (ha : ¬a.writes = true) :
    ∃ block, s b = some block ∧ views[k]? = some (.shared block) := by
  induction operands generalizing k views with
  | nil => cases hk
  | cons o operands ih =>
    cases o with
    | scratch bytes =>
      cases k with
      | zero => cases hk
      | succ k =>
        unfold openAll at h
        split at h
        · obtain ⟨rest, hrest, rfl⟩ := Option.map_eq_some_iff.mp h
          exact ih hrest hk
        · cases h
    | data j c =>
      unfold openAll at h
      split at h
      · cases h
      · rename_i block hblock
        split at h
        · rename_i s' rest hrest
          obtain rfl := Option.some.inj h
          cases k with
          | zero =>
            cases hk
            rw [if_neg ha]
            exact ⟨block, hblock, rfl⟩
          | succ k => exact ih (congrArg Prod.snd hrest) hk
        · cases h

end Store

section

variable [Scalar α]

namespace Node

/-- Opening in order does to what is shown what it should, and shows the same views. -/
theorem shows_openAll (n : Node α) (operands : List Operand)
    (hb : ∀ h a, .data h a ∈ operands → h < n.handles.length) :
    (n.openAll operands).1.shows = (n.shows.openAll operands).1 ∧
      (n.openAll operands).2 = (n.shows.openAll operands).2 := by
  induction operands generalizing n with
  | nil => exact ⟨rfl, rfl⟩
  | cons o operands ih =>
    cases o with
    | scratch bytes =>
      have hrest := ih n fun h a ha => hb h a (List.mem_cons_of_mem _ ha)
      by_cases hs : allocatable ((bytes + 7) / 8 * 8) = true
      · simp only [openAll, Store.openAll, if_pos hs, hrest.1, hrest.2, and_self]
      · simp only [openAll, Store.openAll, if_neg hs, and_self]
    | data h a =>
      have hh : h < n.handles.length := hb h a List.mem_cons_self
      have hlen : (n.openHandle h).1.handles.length = n.handles.length :=
        (onlyMemory_openHandle n h).length
      have hrest := ih (n.openHandle h).1 fun j b hj =>
        hlen ▸ hb j b (List.mem_cons_of_mem _ hj)
      rw [shows_openHandle] at hrest
      cases ho : (n.openHandle h).2 with
      | error f =>
        have hopen : n.openHandle h = ((n.openHandle h).1, .error f) := Prod.ext rfl ho
        obtain ⟨-, hnone⟩ := openHandle_eq_error hopen
        have hshows := shows_openHandle n h
        unfold openAll Store.openAll
        rw [hopen, hnone]
        exact ⟨hshows, rfl⟩
      | ok block =>
        have hopen : n.openHandle h = ((n.openHandle h).1, .ok block) := Prod.ext rfl ho
        obtain ⟨-, hsome⟩ := openHandle_eq_ok hopen
        generalize (n.openHandle h).1 = m at hopen hrest hlen
        obtain ⟨hshows, hviews⟩ := hrest
        have hmlen := (onlyMemory_openAll m operands).length
        unfold openAll Store.openAll
        rw [hopen, hsome]
        dsimp only
        generalize m.openAll operands = p at hshows hviews hmlen
        generalize n.shows.openAll operands = q at hshows hviews
        obtain ⟨p, views⟩ := p
        obtain ⟨q, views'⟩ := q
        dsimp only at hshows hviews hmlen
        subst hviews
        cases views with
        | some views => exact ⟨hshows, rfl⟩
        | none =>
          refine ⟨?_, rfl⟩
          by_cases hw : a.writes = true
          · simp only [if_pos hw]
            rw [shows_setHandle (by rw [hmlen, hlen]; exact hh), Handle.shows_poison, hshows]
          · simp only [if_neg hw]
            exact hshows

/-- What opening a list of buffers has opened. -/
theorem opened_openAll (n : Node α) (operands : List Operand) {views : List (View α)}
    (hv : (n.openAll operands).2 = some views)
    (hb : ∀ h a, .data h a ∈ operands → h < n.handles.length) :
    (∀ h, n.Opened h → (n.openAll operands).1.Opened h) ∧
      ∀ h a, .data h a ∈ operands → (n.openAll operands).1.Opened h := by
  induction operands generalizing n views with
  | nil => exact ⟨fun h hh => hh, by simp⟩
  | cons o operands ih =>
    cases o with
    | scratch bytes =>
      by_cases hs : allocatable ((bytes + 7) / 8 * 8) = true
      · simp only [openAll, if_pos hs] at hv ⊢
        obtain ⟨views', hv', -⟩ := Option.map_eq_some_iff.mp hv
        obtain ⟨hkeep, hnew⟩ := ih n hv' fun h a ha => hb h a (List.mem_cons_of_mem _ ha)
        refine ⟨hkeep, ?_⟩
        intro h a ha
        exact hnew h a ((List.mem_cons.mp ha).resolve_left (by simp))
      · simp [openAll, if_neg hs] at hv
    | data h a =>
      have hh : h < n.handles.length := hb h a List.mem_cons_self
      cases ho : (n.openHandle h).2 with
      | error f =>
        have hopen : n.openHandle h = ((n.openHandle h).1, .error f) := Prod.ext rfl ho
        unfold openAll at hv
        rw [hopen] at hv
        cases hv
      | ok block =>
        have hopen : n.openHandle h = ((n.openHandle h).1, .ok block) := Prod.ext rfl ho
        have hlen : (n.openHandle h).1.handles.length = n.handles.length :=
          (onlyMemory_openHandle n h).length
        have hkeep : ∀ j, n.Opened j → (n.openHandle h).1.Opened j := by
          intro j hj
          rw [openHandle_fst]
          exact opened_setHandle hj fun _ => Handle.access_memory_ne_absent _
        have hself : (n.openHandle h).1.Opened h := by
          unfold Opened
          rw [openHandle_fst, handle_setHandle, if_pos ⟨rfl, hh⟩]
          exact Handle.access_memory_ne_absent _
        unfold openAll at hv ⊢
        rw [hopen] at hv ⊢
        dsimp only at hv ⊢
        generalize (n.openHandle h).1 = m at hv hlen hkeep hself
        have hrest := fun views hv => @ih m views hv fun j b hj =>
          hlen ▸ hb j b (List.mem_cons_of_mem _ hj)
        generalize m.openAll operands = p at hv hrest
        obtain ⟨p, views'⟩ := p
        cases views' with
        | none => cases hv
        | some views' =>
          obtain ⟨hkeep', hnew'⟩ := hrest views' rfl
          refine ⟨fun j hj => hkeep' j (hkeep j hj), ?_⟩
          intro j b hj
          rcases List.mem_cons.mp hj with hj | hj
          · cases hj
            exact hkeep' h hself
          · exact hnew' j b hj

theorem shows_storeAll (n : Node α) (operands : List Operand) (views : List (View α))
    (hb : ∀ h a, .data h a ∈ operands → h < n.handles.length ∧ n.Opened h) :
    (n.storeAll operands views).shows = n.shows.storeAll operands views := by
  induction operands generalizing n views with
  | nil => simp [storeAll, Store.storeAll]
  | cons o operands ih =>
    cases views with
    | nil => cases o <;> simp [storeAll, Store.storeAll]
    | cons v views =>
      have hb' : ∀ h a, .data h a ∈ operands → h < n.handles.length ∧ n.Opened h :=
        fun h a ha => hb h a (List.mem_cons_of_mem _ ha)
      cases o with
      | scratch bytes => simpa [storeAll, Store.storeAll] using ih n views hb'
      | data h a =>
        obtain ⟨hh, ho⟩ := hb h a List.mem_cons_self
        unfold storeAll Store.storeAll
        dsimp only
        cases v with
        | shared block => exact ih n views hb'
        | scratch bytes => exact ih n views hb'
        | exclusive block =>
          dsimp only
          by_cases hw : a.writes = true
          · rw [if_pos hw, if_pos hw, ih]
            · rw [shows_setHandle hh, Handle.shows_store ho]
              rfl
            · intro j b hj
              obtain ⟨hjl, hjo⟩ := hb' j b hj
              refine ⟨(onlyMemory_store n h block).length ▸ hjl, ?_⟩
              exact opened_setHandle hjo fun he => Handle.store_memory_ne_absent he block
          · rw [if_neg hw, if_neg hw]
            exact ih n views hb'

theorem shows_poisonAll (n : Node α) (uses : List (HandleId × Access))
    (hb : ∀ u ∈ uses, u.1 < n.handles.length) :
    (n.poisonAll uses).shows = n.shows.poisonAll uses := by
  induction uses generalizing n with
  | nil => rfl
  | cons u uses ih =>
    rw [poisonAll, Store.poisonAll, List.foldl_cons, List.foldl_cons]
    have hu := hb u List.mem_cons_self
    have hrest : ∀ v ∈ uses, v.1 < n.handles.length := fun v hv => hb v (List.mem_cons_of_mem _ hv)
    by_cases hw : u.2.writes = true
    · rw [if_pos hw, if_pos hw]
      have hlen := (onlyMemory_poison n u.1).length
      have := ih (n.setHandle u.1 (n.handle u.1).poison) fun v hv => hlen ▸ hrest v hv
      rw [shows_setHandle hu] at this
      exact this
    · rw [if_neg hw, if_neg hw]
      exact ih n hrest

/-- Running an operation on buffers that exist does to what is shown what it should. -/
theorem shows_run (n : Node α) (op : Op α) (hb : ∀ u ∈ op.uses, u.1 < n.handles.length) :
    (n.run op).shows = n.shows.run op := by
  have hdata : ∀ h a, .data h a ∈ op.operands → h < n.handles.length :=
    fun h a ha => hb (h, a) (Op.mem_uses_iff.mpr ha)
  obtain ⟨hshows, hviews⟩ := shows_openAll n op.operands hdata
  have hlen := (onlyMemory_openAll n op.operands).length
  have hopened := fun views hv => @opened_openAll _ _ n op.operands views hv hdata
  unfold run Store.run
  generalize n.openAll op.operands = p at hshows hviews hlen hopened
  generalize n.shows.openAll op.operands = q at hshows hviews
  obtain ⟨p, views⟩ := p
  obtain ⟨q, views'⟩ := q
  dsimp only at hshows hviews hlen hopened
  subst hviews hshows
  cases views with
  | none => rfl
  | some views =>
    dsimp only
    cases op.codelet views with
    | error f => exact shows_poisonAll p op.uses fun u hu => hlen ▸ hb u hu
    | ok out =>
      refine shows_storeAll p op.operands out ?_
      intro h a ha
      exact ⟨hlen ▸ hdata h a ha, (hopened views rfl).2 h a ha⟩

end Node

end

/-! ## Operations as deeds -/

namespace Store

/-- Two stores agree on the buffers of a list. -/
def EqOn (hs : HandleId → Prop) (s s' : Store α) : Prop := ∀ h, hs h → s h = s' h

theorem EqOn.set {hs : HandleId → Prop} {s s' : Store α} (he : EqOn hs s s') (h : HandleId)
    {v v' : Option (List α)} (hv : hs h → v = v') : EqOn hs (s.set h v) (s'.set h v') := by
  intro j hj
  unfold Store.set
  by_cases hjh : j = h
  · rw [if_pos hjh, if_pos hjh, hv (hjh ▸ hj)]
  · rw [if_neg hjh, if_neg hjh, he j hj]

theorem openAll_congr {hs : HandleId → Prop} {s s' : Store α} (he : EqOn hs s s')
    (operands : List Operand) (hb : ∀ h a, .data h a ∈ operands → hs h) :
    EqOn hs (s.openAll operands).1 (s'.openAll operands).1 ∧
      (s.openAll operands).2 = (s'.openAll operands).2 := by
  induction operands with
  | nil => exact ⟨he, rfl⟩
  | cons o operands ih =>
    have hrest := ih fun h a ha => hb h a (List.mem_cons_of_mem _ ha)
    cases o with
    | scratch bytes =>
      by_cases hs : allocatable ((bytes + 7) / 8 * 8) = true
      · simp only [openAll, if_pos hs, hrest.2, and_true]
        exact hrest.1
      · simp only [openAll, if_neg hs, and_true]
        exact he
    | data h a =>
      have hh : hs h := hb h a List.mem_cons_self
      unfold openAll
      rw [← he h hh]
      cases s h with
      | none => exact ⟨he, rfl⟩
      | some block =>
        dsimp only
        generalize s.openAll operands = p at hrest
        generalize s'.openAll operands = q at hrest
        obtain ⟨p, views⟩ := p
        obtain ⟨q, views'⟩ := q
        obtain ⟨heq, hviews⟩ := hrest
        dsimp only at heq hviews
        subst hviews
        cases views with
        | some views => exact ⟨heq, rfl⟩
        | none =>
          refine ⟨?_, rfl⟩
          by_cases hw : a.writes = true
          · simp only [if_pos hw]
            exact heq.set h fun _ => rfl
          · simp only [if_neg hw]
            exact heq

theorem storeAll_congr {hs : HandleId → Prop} {s s' : Store α} (he : EqOn hs s s')
    (operands : List Operand) (views : List (View α)) :
    EqOn hs (s.storeAll operands views) (s'.storeAll operands views) := by
  induction operands generalizing s s' views with
  | nil => simpa [storeAll] using he
  | cons o operands ih =>
    cases views with
    | nil => cases o <;> simpa [storeAll] using he
    | cons v views =>
      cases o with
      | scratch bytes => simpa [storeAll] using ih he views
      | data h a =>
        unfold storeAll
        refine ih ?_ views
        cases v with
        | shared block => exact he
        | scratch bytes => exact he
        | exclusive block =>
          by_cases hw : a.writes = true
          · simp only [if_pos hw]
            exact he.set h fun hh => by rw [he h hh]
          · simp only [if_neg hw]
            exact he

theorem poisonAll_congr {hs : HandleId → Prop} {s s' : Store α} (he : EqOn hs s s')
    (uses : List (HandleId × Access)) : EqOn hs (s.poisonAll uses) (s'.poisonAll uses) := by
  induction uses generalizing s s' with
  | nil => exact he
  | cons u uses ih =>
    rw [poisonAll, poisonAll, List.foldl_cons, List.foldl_cons]
    refine ih ?_
    by_cases hw : u.2.writes = true
    · rw [if_pos hw, if_pos hw]
      exact he.set u.1 fun _ => rfl
    · rw [if_neg hw, if_neg hw]
      exact he

/-- What an operation leaves depends only on its buffers. -/
theorem run_congr {hs : HandleId → Prop} {s s' : Store α} (he : EqOn hs s s') (op : Op α)
    (hb : ∀ h a, (h, a) ∈ op.uses → hs h) : EqOn hs (s.run op) (s'.run op) := by
  have hopen := openAll_congr he op.operands fun h a ha => hb h a (Op.mem_uses_iff.mpr ha)
  unfold run
  generalize s.openAll op.operands = p at hopen
  generalize s'.openAll op.operands = q at hopen
  obtain ⟨p, views⟩ := p
  obtain ⟨q, views'⟩ := q
  obtain ⟨heq, hviews⟩ := hopen
  dsimp only at heq hviews
  subst hviews
  cases views with
  | none => exact heq
  | some views =>
    dsimp only
    cases op.codelet views with
    | error f => exact poisonAll_congr heq op.uses
    | ok out => exact storeAll_congr heq op.operands out

/-! ### What is not written -/

theorem openAll_frame (s : Store α) {operands : List Operand} {h : HandleId}
    (hn : ∀ a, .data h a ∈ operands → ¬a.writes = true) : (s.openAll operands).1 h = s h := by
  induction operands with
  | nil => rfl
  | cons o operands ih =>
    have hrest := ih fun a ha => hn a (List.mem_cons_of_mem _ ha)
    cases o with
    | scratch bytes =>
      by_cases hs : allocatable ((bytes + 7) / 8 * 8) = true
      · simp only [openAll, if_pos hs]
        exact hrest
      · simp only [openAll, if_neg hs]
    | data j a =>
      unfold openAll
      cases s j with
      | none => rfl
      | some block =>
        dsimp only
        generalize s.openAll operands = p at hrest
        obtain ⟨p, views⟩ := p
        cases views with
        | some views => exact hrest
        | none =>
          dsimp only at hrest ⊢
          by_cases hw : a.writes = true
          · rw [if_pos hw, Store.set_of_ne, hrest]
            rintro rfl
            exact hn a List.mem_cons_self hw
          · rw [if_neg hw, hrest]

theorem storeAll_frame (s : Store α) {operands : List Operand} (views : List (View α))
    {h : HandleId} (hn : ∀ a, .data h a ∈ operands → ¬a.writes = true) :
    s.storeAll operands views h = s h := by
  induction operands generalizing s views with
  | nil => simp [storeAll]
  | cons o operands ih =>
    have hrest : ∀ (s : Store α) (views : List (View α)), s.storeAll operands views h = s h :=
      fun s views => ih s views fun a ha => hn a (List.mem_cons_of_mem _ ha)
    cases views with
    | nil => cases o <;> simp [storeAll]
    | cons v views =>
      cases o with
      | scratch bytes => simpa [storeAll] using hrest s views
      | data j a =>
        unfold storeAll
        rw [hrest]
        cases v with
        | shared block => rfl
        | scratch bytes => rfl
        | exclusive block =>
          by_cases hw : a.writes = true
          · simp only [if_pos hw]
            refine Store.set_of_ne s _ ?_
            rintro rfl
            exact hn a List.mem_cons_self hw
          · simp only [if_neg hw]

theorem poisonAll_frame (s : Store α) {uses : List (HandleId × Access)} {h : HandleId}
    (hn : ∀ a, (h, a) ∈ uses → ¬a.writes = true) : s.poisonAll uses h = s h := by
  induction uses generalizing s with
  | nil => rfl
  | cons u uses ih =>
    rw [poisonAll, List.foldl_cons]
    refine (ih _ fun a ha => hn a (List.mem_cons_of_mem _ ha)).trans ?_
    by_cases hw : u.2.writes = true
    · rw [if_pos hw]
      refine Store.set_of_ne s _ ?_
      rintro rfl
      exact hn u.2 List.mem_cons_self hw
    · rw [if_neg hw]

/-- An operation leaves the buffers alone that it does not write. -/
theorem run_frame (s : Store α) {op : Op α} {h : HandleId}
    (hn : ∀ a, (h, a) ∈ op.uses → ¬a.writes = true) : s.run op h = s h := by
  have hdata : ∀ a, .data h a ∈ op.operands → ¬a.writes = true :=
    fun a ha => hn a (Op.mem_uses_iff.mpr ha)
  have hopen := openAll_frame s hdata
  unfold run
  generalize s.openAll op.operands = p at hopen
  obtain ⟨p, views⟩ := p
  dsimp only at hopen
  cases views with
  | none => exact hopen
  | some views =>
    dsimp only
    cases op.codelet views with
    | error f => exact (poisonAll_frame p hn).trans hopen
    | ok out => exact (storeAll_frame p out hdata).trans hopen

end Store

/-- An operation is a deed. -/
def Deed.ofOp (op : Op α) : Deed α where
  uses := op.uses
  effect s := s.run op
  frame s _ hn := s.run_frame hn
  congr _ _ hs h a ha := by
    have he : Store.EqOn (fun j => ∃ b, (j, b) ∈ op.uses) _ _ := fun j ⟨b, hb⟩ => hs j b hb
    exact Store.run_congr he op (fun _ b hb => ⟨b, hb⟩) h ⟨a, ha⟩

end TiledTensor

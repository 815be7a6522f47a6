import TiledTensor.Proofs.Lifecycle

/-!
# Performing tasks out of order

A *deed* is what a task does to the values of buffers: it changes none but those that it writes, and
what it makes of them depends on none but those that it uses.  Deeds are numbered in the order of
submission, and `Deed.after` performs a run of them one after the other.

`Deed.Agrees` compares a store in which some deeds have been applied, in whatever order, with that
serial execution.  A buffer whose applied writers are exactly the first ones, say those below `k`,
has the value that it has after the first `k` deeds.  The relation is kept whenever a deed is
applied after all earlier deeds that it conflicts with and before all later ones.
-/

namespace TiledTensor

/-- What can be read from each buffer; nothing from one that cannot be opened. -/
abbrev Store (α : Type) := HandleId → Option (List α)

namespace Store

variable {α : Type}

/-- The same values with one of them changed. -/
def set (s : Store α) (h : HandleId) (v : Option (List α)) : Store α :=
  fun j => if j = h then v else s j

@[simp] theorem set_self (s : Store α) (h : HandleId) (v : Option (List α)) : s.set h v h = v :=
  if_pos rfl

theorem set_of_ne (s : Store α) {h j : HandleId} (v : Option (List α)) (hj : j ≠ h) :
    s.set h v j = s j :=
  if_neg hj

end Store

/-- What a task does to the values of buffers. -/
structure Deed (α : Type) where
  uses : List (HandleId × Access)
  effect : Store α → Store α
  /-- Buffers that are not written keep their values. -/
  frame : ∀ (s : Store α) (h : HandleId), (∀ a, (h, a) ∈ uses → ¬a.writes = true) →
    effect s h = s h
  /-- The outcome depends only on the buffers that are used. -/
  congr : ∀ s s' : Store α, (∀ h a, (h, a) ∈ uses → s h = s' h) →
    ∀ h a, (h, a) ∈ uses → effect s h = effect s' h

namespace Deed

variable {α : Type}

/-- The deed writes the buffer. -/
def Writes (d : Deed α) (h : HandleId) : Prop := ∃ a, (h, a) ∈ d.uses ∧ a.writes = true

theorem effect_of_not_writes {d : Deed α} {h : HandleId} (hw : ¬d.Writes h) (s : Store α) :
    d.effect s h = s h :=
  d.frame s h fun a ha hwa => hw ⟨a, ha, hwa⟩

/-- A deed that changes nothing. -/
def idle (uses : List (HandleId × Access)) : Deed α where
  uses := uses
  effect s := s
  frame _ _ _ := rfl
  congr _ _ hs h a ha := hs h a ha

/-- A deed that gives a buffer a value of its own. -/
def fill (h : HandleId) (v : Option (List α)) : Deed α where
  uses := [(h, .write)]
  effect s := s.set h v
  frame s j hj := by
    refine Store.set_of_ne s v ?_
    rintro rfl
    exact hj .write List.mem_cons_self rfl
  congr s s' _ j a ha := by
    obtain ⟨rfl, -⟩ := Prod.mk.inj (List.mem_singleton.mp ha)
    rw [Store.set_self, Store.set_self]

/-- A deed that replaces the first elements of a buffer, once for each of some blocks.  Access that
does not allow it changes nothing. -/
def puts (h : HandleId) (a : Access) (blocks : List (List α)) : Deed α where
  uses := [(h, a)]
  effect s :=
    if a.writes then s.set h (blocks.foldl (fun v block => v.map (overlay block)) (s h)) else s
  frame s j hj := by
    by_cases ha : a.writes = true
    · rw [if_pos ha]
      refine Store.set_of_ne s _ ?_
      rintro rfl
      exact hj a List.mem_cons_self ha
    · rw [if_neg ha]
  congr s s' hs j b hb := by
    obtain ⟨rfl, -⟩ := Prod.mk.inj (List.mem_singleton.mp hb)
    by_cases ha : a.writes = true
    · rw [if_pos ha, if_pos ha, Store.set_self, Store.set_self, hs j b hb]
    · rw [if_neg ha, if_neg ha, hs j b hb]

/-- One deed after another on the same buffers. -/
def andThen (d e : Deed α) (he : e.uses = d.uses) : Deed α where
  uses := d.uses
  effect s := e.effect (d.effect s)
  frame s h hn := by
    rw [e.frame _ _ (he ▸ hn), d.frame _ _ hn]
  congr s s' hs h a ha := by
    refine e.congr _ _ ?_ h a (he ▸ ha)
    intro j b hb
    exact d.congr s s' hs j b (he ▸ hb)

/-- The holder of an accessor who writes nothing changes nothing. -/
theorem puts_nil_effect (h : HandleId) (a : Access) (s : Store α) :
    (puts h a []).effect s = s := by
  show (if a.writes = true then s.set h (s h) else s) = s
  split
  · funext j
    by_cases hj : j = h
    · rw [hj, Store.set_self]
    · rw [Store.set_of_ne _ _ hj]
  · rfl

theorem puts_append (h : HandleId) (a : Access) (blocks more : List (List α)) :
    puts h a (blocks ++ more) = (puts h a blocks).andThen (puts h a more) rfl := by
  unfold puts andThen
  simp only [mk.injEq, true_and]
  funext s
  by_cases ha : a.writes = true
  · simp only [if_pos ha, Store.set_self, List.foldl_append]
    funext j
    by_cases hj : j = h
    · rw [hj, Store.set_self, Store.set_self]
    · rw [Store.set_of_ne _ _ hj, Store.set_of_ne _ _ hj, Store.set_of_ne _ _ hj]
  · simp only [if_neg ha]

/-! ## Serial execution -/

/-- The values after deeds have been performed in order. -/
def after (init : Store α) (deeds : List (Deed α)) : Store α :=
  deeds.foldl (fun s d => d.effect s) init

theorem after_append_singleton (init : Store α) (deeds : List (Deed α)) (d : Deed α) :
    after init (deeds ++ [d]) = d.effect (after init deeds) := by
  simp [after]

theorem after_take_succ {init : Store α} {deeds : List (Deed α)} {k : Nat} {d : Deed α}
    (hd : deeds[k]? = some d) :
    after init (deeds.take (k + 1)) = d.effect (after init (deeds.take k)) := by
  obtain ⟨hk, rfl⟩ := List.getElem?_eq_some_iff.mp hd
  rw [List.take_succ_eq_append_getElem hk, after_append_singleton]

/-- A buffer keeps its value while no deed writes it. -/
theorem after_take_of_unwritten {init : Store α} {deeds : List (Deed α)} {h : HandleId} {k m : Nat}
    (hkm : k ≤ m) (hn : ∀ j d, deeds[j]? = some d → k ≤ j → j < m → ¬d.Writes h) :
    after init (deeds.take m) h = after init (deeds.take k) h := by
  obtain ⟨c, rfl⟩ := Nat.exists_eq_add_of_le hkm
  induction c with
  | zero => rfl
  | succ c ih =>
    have hprev := ih (Nat.le_add_right k c) fun j d hd hkj hj =>
      hn j d hd hkj (Nat.lt_succ_of_lt hj)
    rw [← Nat.add_assoc]
    cases hd : deeds[k + c]? with
    | none =>
      have hlen : deeds.length ≤ k + c := List.getElem?_eq_none_iff.mp hd
      rw [List.take_of_length_le hlen] at hprev
      rw [List.take_of_length_le (Nat.le_succ_of_le hlen), hprev]
    | some d =>
      have hnot := hn (k + c) d hd (Nat.le_add_right k c) (Nat.lt_succ_self _)
      rw [after_take_succ hd, effect_of_not_writes hnot, hprev]

/-! ## Any other order -/

/-- Every buffer has the value of the serial execution up to any point that separates its applied
writers from the others. -/
def Agrees (init : Store α) (deeds : List (Deed α)) (applied : TaskId → Prop) (s : Store α) :
    Prop :=
  ∀ (k : Nat) (h : HandleId), k ≤ deeds.length →
    (∀ (j : TaskId) (d : Deed α), deeds[j]? = some d → d.Writes h → (applied j ↔ j < k)) →
    s h = after init (deeds.take k) h

/-- It is the turn of deed `k`: of the deeds that it conflicts with exactly the earlier ones have
been applied. -/
def Turn (deeds : List (Deed α)) (applied : TaskId → Prop) (k : TaskId) (d : Deed α) : Prop :=
  ∀ j e, deeds[j]? = some e → Conflict d.uses e.uses → j ≠ k → (applied j ↔ j < k)

variable {init s : Store α} {deeds : List (Deed α)} {applied : TaskId → Prop} {k : TaskId}
  {d : Deed α}

/-- A writer of a buffer conflicts with every other user. -/
theorem Writes.conflict {e : Deed α} {h : HandleId} {a : Access} (he : e.Writes h)
    (ha : (h, a) ∈ d.uses) (hs : a ≠ .scratch) : Conflict d.uses e.uses := by
  obtain ⟨b, hb, hbw⟩ := he
  exact (Conflict.of_write hb ha hbw hs).symm

namespace Agrees

/-- A deed that has not been applied yet changes nothing. -/
theorem append (ha : Agrees init deeds applied s) (hlt : ∀ j, applied j → j < deeds.length)
    (d : Deed α) : Agrees init (deeds ++ [d]) applied s := by
  have hget : ∀ {j : TaskId} {e : Deed α}, deeds[j]? = some e → (deeds ++ [d])[j]? = some e := by
    intro j e he
    rw [List.getElem?_append_left (lt_of_getElem?_eq_some he), he]
  intro k h hk hw
  by_cases hkl : k ≤ deeds.length
  · rw [List.take_append_of_le_length hkl]
    exact ha k h hkl fun j e he => hw j e (hget he)
  · have hk' : k = deeds.length + 1 := by
      rw [List.length_append, List.length_singleton] at hk
      omega
    subst hk'
    have hlast := hw deeds.length d List.getElem?_concat_length
    have hnot : ¬d.Writes h := by
      intro hd
      exact Nat.lt_irrefl _ (hlt _ ((hlast hd).mpr (Nat.lt_succ_self _)))
    rw [List.take_of_length_le (by simp), after_append_singleton, effect_of_not_writes hnot]
    rw [← List.take_length (l := deeds)]
    refine ha _ h (Nat.le_refl _) ?_
    intro j e he hwe
    rw [hw j e (hget he) hwe]
    have hj := lt_of_getElem?_eq_some he
    exact iff_of_true (Nat.lt_succ_of_lt hj) hj

/-- At the turn of a deed its buffers have the values of the serial execution. -/
theorem value_of_turn (ha : Agrees init deeds applied s) (hd : deeds[k]? = some d)
    (ht : Turn deeds applied k d) (hk : ¬applied k) {h : HandleId} {a : Access}
    (hu : (h, a) ∈ d.uses) (hs : a ≠ .scratch) : s h = after init (deeds.take k) h := by
  refine ha k h (Nat.le_of_lt (lt_of_getElem?_eq_some hd)) ?_
  intro j e he hw
  by_cases hj : j = k
  · rw [hj]
    exact iff_of_false hk (Nat.lt_irrefl k)
  · exact ht j e he (hw.conflict hu hs) hj

/-- Once a deed is applied, and before any later one that it conflicts with, its buffers have the
values after it. -/
theorem value_of_applied (ha : Agrees init deeds applied s) (hd : deeds[k]? = some d)
    (ht : Turn deeds applied k d) (hk : applied k) {h : HandleId} {a : Access}
    (hu : (h, a) ∈ d.uses) (hs : a ≠ .scratch) : s h = after init (deeds.take (k + 1)) h := by
  refine ha (k + 1) h (lt_of_getElem?_eq_some hd) ?_
  intro j e he hw
  by_cases hj : j = k
  · rw [hj]
    exact iff_of_true hk (Nat.lt_succ_self k)
  · rw [ht j e he (hw.conflict hu hs) hj]
    have : j ≠ k := hj
    exact ⟨Nat.lt_succ_of_lt, fun h => Nat.lt_of_le_of_ne (Nat.le_of_lt_succ h) this⟩

/-- No writer of a buffer stands between a deed that writes it, at its turn, and a point that
separates the applied writers from the others. -/
theorem unwritten_between {m : Nat} {h : HandleId} (ht : Turn deeds applied k d)
    (hw : d.Writes h)
    (hm : ∀ (j : TaskId) (e : Deed α), deeds[j]? = some e → e.Writes h → j ≠ k → (applied j ↔ j < m)) :
    ∀ j e, deeds[j]? = some e → k + 1 ≤ j → j < m → ¬e.Writes h := by
  intro j e he hkj hjm hwe
  have hjk : j ≠ k := Nat.ne_of_gt hkj
  obtain ⟨a, hu, haw⟩ := hw
  have hbefore := (ht j e he (hwe.conflict hu (Access.ne_scratch_of_writes haw)) hjk).mp
    ((hm j e he hwe hjk).mpr hjm)
  exact Nat.lt_irrefl j (Nat.lt_of_lt_of_le hbefore (Nat.le_of_succ_le hkj))

/-- A deed is applied at its turn. -/
theorem apply (ha : Agrees init deeds applied s) (hd : deeds[k]? = some d)
    (ht : Turn deeds applied k d) (hk : ¬applied k) (hs : ∀ u ∈ d.uses, u.2 ≠ .scratch) :
    Agrees init deeds (fun j => applied j ∨ j = k) (d.effect s) := by
  intro m h hm hw
  have hw' : ∀ (j : TaskId) (e : Deed α), deeds[j]? = some e → e.Writes h → j ≠ k → (applied j ↔ j < m) := by
    intro j e he hwe hjk
    exact (or_iff_left hjk).symm.trans (hw j e he hwe)
  by_cases hdw : d.Writes h
  · have hkm : k + 1 ≤ m := (hw k d hd hdw).mp (Or.inr rfl)
    rw [after_take_of_unwritten hkm (unwritten_between ht hdw hw'), after_take_succ hd]
    obtain ⟨a, hu, -⟩ := hdw
    refine d.congr _ _ ?_ h a hu
    intro j b hb
    exact ha.value_of_turn hd ht hk hb (hs _ hb)
  · rw [effect_of_not_writes hdw]
    refine ha m h hm ?_
    intro j e he hwe
    refine hw' j e he hwe ?_
    rintro rfl
    rw [hd, Option.some.injEq] at he
    exact hdw (he ▸ hwe)

end Agrees

/-! ## Deeds that go on

The holder of an accessor writes its buffer as often as it likes.  Each write prolongs the deed of
the accessor, which has been applied already. -/

/-- A deed does not matter to the value of a buffer if no deed that matters conflicts with it. -/
theorem after_congr {deeds' : List (Deed α)} (good : TaskId → Prop)
    (hlen : deeds'.length = deeds.length)
    (huses : ∀ (j : TaskId) (e e' : Deed α), deeds[j]? = some e → deeds'[j]? = some e' → e'.uses = e.uses)
    (hgood : ∀ j, good j → deeds'[j]? = deeds[j]?)
    (hclosed : ∀ (i j : TaskId) (e f : Deed α), deeds[i]? = some e → deeds[j]? = some f → i < j →
      Conflict f.uses e.uses → good j → good i)
    (hscratch : ∀ (j : TaskId) (e : Deed α), deeds[j]? = some e → ∀ u ∈ e.uses, u.2 ≠ .scratch) (m : Nat) :
    ∀ h, (∀ (j : TaskId) (e : Deed α), deeds[j]? = some e → e.Writes h → j < m → good j) →
      after init (deeds'.take m) h = after init (deeds.take m) h := by
  induction m with
  | zero =>
    intro h _
    rfl
  | succ m ih =>
    intro h hw
    have hprev : ∀ (j : TaskId) (e : Deed α), deeds[j]? = some e → e.Writes h → j < m → good j := by
      intro j e he hwe hj
      exact hw j e he hwe (Nat.lt_succ_of_lt hj)
    cases hm : deeds[m]? with
    | none =>
      have hl : deeds.length ≤ m := List.getElem?_eq_none_iff.mp hm
      have hl' : deeds'.length ≤ m := hlen ▸ hl
      have := ih h hprev
      rw [List.take_of_length_le hl, List.take_of_length_le hl'] at this
      rw [List.take_of_length_le (Nat.le_succ_of_le hl),
        List.take_of_length_le (Nat.le_succ_of_le hl'), this]
    | some e =>
      have hml : m < deeds'.length := hlen ▸ lt_of_getElem?_eq_some hm
      obtain ⟨e', hm'⟩ : ∃ e', deeds'[m]? = some e' := ⟨_, List.getElem?_eq_getElem hml⟩
      rw [after_take_succ hm, after_take_succ hm']
      by_cases hwe : e.Writes h
      · -- the deed matters, so it is the same, and so do all that it depends on
        have hgm : good m := hw m e hm hwe (Nat.lt_succ_self m)
        obtain rfl : e' = e := by
          rw [hgood m hgm, hm, Option.some.injEq] at hm'
          exact hm'.symm
        obtain ⟨a, hu, -⟩ := hwe
        refine e'.congr _ _ ?_ h a hu
        intro j b hb
        refine ih j ?_
        intro i f hf hwf hi
        exact hclosed i m f e' hf hm hi (hwf.conflict hb (hscratch m e' hm _ hb)) hgm
      · have hwe' : ¬e'.Writes h := by
          rintro ⟨a, hu, haw⟩
          exact hwe ⟨a, huses m e e' hm hm' ▸ hu, haw⟩
        rw [effect_of_not_writes hwe, effect_of_not_writes hwe', ih h hprev]

/-- Deeds that have not been applied can be exchanged for others. -/
theorem Agrees.revise {deeds' : List (Deed α)} (ha : Agrees init deeds applied s)
    (hlen : deeds'.length = deeds.length)
    (huses : ∀ (j : TaskId) (e e' : Deed α), deeds[j]? = some e → deeds'[j]? = some e' → e'.uses = e.uses)
    (hsame : ∀ j, applied j → deeds'[j]? = deeds[j]?)
    (hclosed : ∀ (i j : TaskId) (e f : Deed α), deeds[i]? = some e → deeds[j]? = some f → i < j →
      Conflict f.uses e.uses → applied j → applied i)
    (hscratch : ∀ (j : TaskId) (e : Deed α), deeds[j]? = some e → ∀ u ∈ e.uses, u.2 ≠ .scratch) :
    Agrees init deeds' applied s := by
  intro k h hk hw
  have hw' : ∀ (j : TaskId) (e : Deed α), deeds[j]? = some e → e.Writes h → (applied j ↔ j < k) := by
    rintro j e he ⟨a, hu, hwa⟩
    have hj : j < deeds'.length := hlen ▸ lt_of_getElem?_eq_some he
    have he' : deeds'[j]? = some deeds'[j] := List.getElem?_eq_getElem hj
    exact hw j _ he' ⟨a, huses j e _ he he' ▸ hu, hwa⟩
  rw [after_congr applied hlen huses hsame hclosed hscratch k h fun j e he hwe hj =>
    (hw' j e he hwe).mpr hj]
  exact ha k h (hlen ▸ hk) hw'

/-- A deed that has been applied goes on, before any later one that it conflicts with. -/
theorem Agrees.prolong (ha : Agrees init deeds applied s) (hd : deeds[k]? = some d)
    (ht : Turn deeds applied k d) (hk : applied k)
    (hclosed : ∀ (i j : TaskId) (e f : Deed α), deeds[i]? = some e → deeds[j]? = some f → i < j →
      Conflict f.uses e.uses → applied j → applied i)
    (hscratch : ∀ (j : TaskId) (e : Deed α), deeds[j]? = some e → ∀ u ∈ e.uses, u.2 ≠ .scratch)
    (e : Deed α) (he : e.uses = d.uses) :
    Agrees init (deeds.set k (d.andThen e he)) applied (e.effect s) := by
  have hkl : k < deeds.length := lt_of_getElem?_eq_some hd
  have hget : (deeds.set k (d.andThen e he))[k]? = some (d.andThen e he) := by
    rw [List.getElem?_set_self hkl]
  have hother : ∀ j ≠ k, (deeds.set k (d.andThen e he))[j]? = deeds[j]? := by
    intro j hj
    rw [List.getElem?_set_ne (Ne.symm hj)]
  have huses : ∀ (j : TaskId) (f f' : Deed α), deeds[j]? = some f →
      (deeds.set k (d.andThen e he))[j]? = some f' →
      f'.uses = f.uses := by
    intro j f f' hf hf'
    by_cases hj : j = k
    · rw [hj] at hf hf'
      rw [hd, Option.some.injEq] at hf
      rw [hget, Option.some.injEq] at hf'
      exact hf' ▸ hf ▸ rfl
    · rw [hother j hj, hf, Option.some.injEq] at hf'
      exact hf' ▸ rfl
  -- what has been applied does not depend on the deed that goes on
  have hcongr : ∀ m h, (∀ (j : TaskId) (f : Deed α), deeds[j]? = some f → f.Writes h → j < m →
        applied j ∧ j ≠ k) →
      after init ((deeds.set k (d.andThen e he)).take m) h = after init (deeds.take m) h := by
    intro m h
    refine after_congr (fun j => applied j ∧ j ≠ k) (List.length_set ..) huses
      (fun j hj => hother j hj.2) ?_ hscratch m h
    rintro i j f g hf hg hij hc ⟨hj, hjk⟩
    refine ⟨hclosed i j f g hf hg hij hc hj, ?_⟩
    rintro rfl
    rw [hd, Option.some.injEq] at hf
    subst hf
    exact Nat.lt_asymm hij ((ht j g hg hc.symm hjk).mp hj)
  intro m h hm hw
  rw [List.length_set] at hm
  have hw' : ∀ (j : TaskId) (f : Deed α), deeds[j]? = some f → f.Writes h → (applied j ↔ j < m) := by
    intro j f hf hwf
    by_cases hj : j = k
    · rw [hj] at hf ⊢
      rw [hd, Option.some.injEq] at hf
      exact hw k _ hget (hf ▸ hwf)
    · exact hw j f (by rw [hother j hj, hf]) hwf
  by_cases hdw : d.Writes h
  · have hkm : k + 1 ≤ m := (hw' k d hd hdw).mp hk
    have hbetween : ∀ j f, (deeds.set k (d.andThen e he))[j]? = some f → k + 1 ≤ j → j < m →
        ¬f.Writes h := by
      intro j f hf hkj hjm
      have hj : j ≠ k := Nat.ne_of_gt hkj
      rw [hother j hj] at hf
      exact unwritten_between ht hdw (fun i g hg hwg _ => hw' i g hg hwg) j f hf hkj hjm
    rw [after_take_of_unwritten hkm hbetween, after_take_succ hget]
    obtain ⟨a, hu, haw⟩ := hdw
    refine e.congr _ _ ?_ h a (he ▸ hu)
    intro j b hb
    rw [he] at hb
    rw [ha.value_of_applied hd ht hk hb (hscratch k d hd _ hb), after_take_succ hd]
    refine d.congr _ _ ?_ j b hb
    intro i c hc
    refine (hcongr k i ?_).symm
    intro x f hf hwf hx
    have hxk : x ≠ k := Nat.ne_of_lt hx
    exact ⟨(ht x f hf (hwf.conflict hc (hscratch k d hd _ hc)) hxk).mpr hx, hxk⟩
  · rw [effect_of_not_writes (d := e) (by rwa [Writes, he])]
    rw [ha m h hm hw']
    refine (hcongr m h ?_).symm
    intro j f hf hwf hj
    refine ⟨(hw' j f hf hwf).mpr hj, ?_⟩
    rintro rfl
    rw [hd, Option.some.injEq] at hf
    exact hdw (hf ▸ hwf)

end Deed

end TiledTensor

import TiledTensor.Proofs.Atomicity
import TiledTensor.Proofs.Interchange

/-!
# Operations in the place of others

If all that is ever known about the buffers of a rank makes two operations do the same to them, one
may be submitted in the place of the other: whatever else happens, in whatever order, the rank goes
through the same states, and so do all other ranks (`World.outline_after`).  No more than the
operations themselves can be different, wherever these are kept.
-/

namespace TiledTensor

variable {α : Type}

/-! ## Outlines -/

/-- What is left of an operation if its name, its scratch memory and what it does are forgotten. -/
def Op.outline (op : Op α) : Op α := ⟨"", op.uses.map fun u => .data u.1 u.2, .ok⟩

theorem Op.outline_of_uses {op op' : Op α} (h : op'.uses = op.uses) : op'.outline = op.outline := by
  rw [outline, outline, h]

/-- The rank as far as it does not depend on what its operations do. -/
def Node.outline (n : Node α) : Node α := n.mapOps Op.outline

/-- The world as far as it does not depend on what the operations of its ranks do. -/
def World.outline (w : World α) : World α := { w with nodes := w.nodes.map Node.outline }

/-- An exchange that keeps the buffers of operations keeps the outline. -/
theorem Node.outline_mapOps {f : Op α → Op α} (hf : ∀ op, (f op).uses = op.uses) (n : Node α) :
    (n.mapOps f).outline = n.outline := by
  have hcomp : Op.outline ∘ f = (Op.outline : Op α → Op α) :=
    funext fun op => Op.outline_of_uses (hf op)
  rw [outline, mapOps_mapOps, hcomp]
  rfl

/-! ## Calls -/

/-- The same call, except for an operation that another is in the place of. -/
inductive Call.Swaps (R : Op α → Op α → Prop) : Call α → Call α → Prop
  | transfer (h : HandleId) (t : Rank) : Swaps R (.transfer h t) (.transfer h t)
  | submit {op op' : Op α} (swap : R op op') : Swaps R (.submit op) (.submit op')
  | flush (h : HandleId) : Swaps R (.flush h) (.flush h)

namespace Node

variable {n n' : Node α} {c c' : Call α} {calls calls' : List (Call α)}

/-- Operations that are registered and whose buffers are the same. -/
structure Registered (codelets : List String) (op op' : Op α) : Prop where
  uses : op'.uses = op.uses
  clash : firstClash op'.operands = firstClash op.operands
  name : op.name ∈ codelets
  name' : op'.name ∈ codelets

theorem Registered.similar {op op' : Op α} (h : Registered n.codelets op op') : n.Similar op op' :=
  ⟨h.uses, h.clash, fun _ => h.name, fun _ => h.name'⟩

/-- Calls are answered alike, and leave the same outline, whatever buffers and tasks the rank
has. -/
theorem call_swaps {R : Op α → Op α → Prop} (hR : ∀ op op', R op op' → Registered n.codelets op op')
    (hc : Call.Swaps R c c') (hn : n'.outline = n.outline) :
    (n'.call c').1.outline = (n.call c).1.outline ∧ (n'.call c').2 = (n.call c).2 := by
  have hsame : ∀ g : Node α → Node α × Except TaskError Unit,
      (∀ m, g (m.mapOps Op.outline) = ((g m).1.mapOps Op.outline, (g m).2)) →
      (g n').1.outline = (g n).1.outline ∧ (g n').2 = (g n).2 := by
    intro g hg
    have h := hg n'
    rw [show n'.mapOps Op.outline = n.mapOps Op.outline from hn, hg n] at h
    exact Prod.mk.inj h.symm
  cases hc with
  | transfer h t => exact hsame (transfer · h t) fun m => transfer_mapOps Op.outline m h t
  | flush h => exact hsame (flush · h) fun m => flush_mapOps Op.outline m h
  | submit swap =>
    have hreg := hR _ _ swap
    obtain ⟨hnode, hanswer⟩ := submitOn_congr hn hreg.similar (Op.outline_of_uses hreg.uses) .cpu
    exact ⟨hnode, hanswer hreg.name⟩

variable [Scalar α]

theorem callAll_swaps {R : Op α → Op α → Prop}
    (hR : ∀ op op', R op op' → Registered n.codelets op op')
    (hc : List.Forall₂ (Call.Swaps R) calls calls') (hn : n'.outline = n.outline) :
    (n'.callAll calls').1.outline = (n.callAll calls).1.outline ∧
      (n'.callAll calls').2 = (n.callAll calls).2 := by
  induction hc generalizing n n' with
  | nil => exact ⟨hn, rfl⟩
  | @cons c c' calls calls' hcall hrest ih =>
    obtain ⟨a, step⟩ := exists_happening (.ofSize 0) n c
    have hcodelets := codelets_of_undergo step
    obtain ⟨hnode, hanswer⟩ := call_swaps hR hcall hn
    unfold callAll
    generalize n.call c = p at hcodelets hnode hanswer
    generalize n'.call c' = p' at hnode hanswer
    obtain ⟨m, r⟩ := p
    obtain ⟨m', r'⟩ := p'
    dsimp only at hcodelets hnode hanswer
    subst hanswer
    cases r' with
    | ok u => exact ih (hcodelets.symm ▸ hR) hnode
    | error e => exact ⟨hnode, rfl⟩

/-- A script is carried out alike. -/
theorem perform_swaps {R : Op α → Op α → Prop} {s s' : Script α}
    (hR : ∀ op op', R op op' → Registered n.codelets op op')
    (hc : List.Forall₂ (Call.Swaps R) s.calls s'.calls) (hf : s'.failure = s.failure) :
    (n.perform s').1.outline = (n.perform s).1.outline ∧ (n.perform s').2 = (n.perform s).2 := by
  obtain ⟨hnode, hanswer⟩ := callAll_swaps hR hc (Eq.refl n.outline)
  unfold perform
  rw [hf]
  generalize n.callAll s.calls = p at hnode hanswer
  generalize n.callAll s'.calls = p' at hnode hanswer
  obtain ⟨m, r⟩ := p
  obtain ⟨m', r'⟩ := p'
  dsimp only at hnode hanswer
  subst hanswer
  cases r' with
  | error e => exact ⟨hnode, rfl⟩
  | ok u =>
    dsimp only
    cases s.failure <;> exact ⟨hnode, rfl⟩

end Node

/-! ## One for all operations that do the same -/

namespace Op

variable [Scalar α] {I : Node α → Prop} {op op' : Op α}

/-- Two operations that no rank of a kind tells apart: it takes them alike, and they do the same to
its buffers. -/
structure Alike (I : Node α → Prop) (op op' : Op α) : Prop where
  similar : ∀ n, I n → n.Similar op op'
  run : ∀ n, I n → ∀ m : Node α, m.handles = n.handles → m.run op' = m.run op

theorem alike_equivalence (I : Node α → Prop) : Equivalence (Alike I) where
  refl _ := ⟨fun _ _ => ⟨rfl, rfl, Iff.rfl⟩, fun _ _ _ _ => rfl⟩
  symm h := ⟨fun n hn => ⟨(h.similar n hn).uses.symm, (h.similar n hn).clash.symm,
      (h.similar n hn).name.symm⟩, fun n hn m hm => (h.run n hn m hm).symm⟩
  trans h h' := ⟨fun n hn => ⟨(h'.similar n hn).uses.trans (h.similar n hn).uses,
      (h'.similar n hn).clash.trans (h.similar n hn).clash,
      (h'.similar n hn).name.trans (h.similar n hn).name⟩,
    fun n hn m hm => (h'.run n hn m hm).trans (h.run n hn m hm)⟩

def alike (I : Node α → Prop) : Setoid (Op α) := ⟨Alike I, alike_equivalence I⟩

/-- One of the operations that are alike. -/
noncomputable def choice (I : Node α → Prop) (op : Op α) : Op α := (Quotient.mk (alike I) op).out

theorem choice_eq_of_alike (h : Alike I op op') : choice I op' = choice I op :=
  congrArg Quotient.out (Quotient.sound (s := alike I) ((alike I).symm h))

theorem alike_choice (I : Node α → Prop) (op : Op α) : Alike I op (choice I op) :=
  (alike I).symm (Quotient.mk_out (s := alike I) op)

theorem settled_choice (I : Node α → Prop) : Settled (choice I) :=
  funext fun op => choice_eq_of_alike (alike_choice I op)

theorem blind_choice {n : Node α} (hn : I n) : n.Blind (choice I) :=
  ⟨settled_choice I, fun op => (alike_choice I op).similar n hn,
    fun op m hm => (alike_choice I op).run n hn m hm⟩

end Op

theorem Node.undergo_congr [Scalar α] {f : Op α → Op α} {n n' : Node α} {a a' : Happening α}
    (hf : n.Blind f) (hn : n'.mapOps f = n.mapOps f) (ha : a'.mapOps f = a.mapOps f) (net : Cluster) :
    (n'.undergo net a').map (fun p => (p.1, p.2.mapOps f)) =
      (n.undergo net a).map fun p => (p.1, p.2.mapOps f) := by
  have hcodelets : n'.codelets = n.codelets := by rw [← codelets_mapOps f n', hn, codelets_mapOps]
  have hhandles : n'.handles = n.handles := by
    show (n'.mapOps f).handles = n.handles
    rw [hn]
    rfl
  have hf' : n'.Blind f := ⟨hf.settled,
    fun op => ⟨(hf.similar op).uses, (hf.similar op).clash, hcodelets ▸ (hf.similar op).name⟩,
    fun op m hm => hf.run op m (hm.trans hhandles)⟩
  rw [← undergo_mapOps hf', ← undergo_mapOps hf, hn, ha]

/-! ## Worlds -/

/-- Something that happens in a world: on one of its ranks, or to the messages between them. -/
abbrev Occurrence (α : Type) := (Rank × Happening α) ⊕ Cluster.Action

/-- The same happens, except for an operation that another is in the place of. -/
inductive Happening.Swaps (R : Op α → Op α → Prop) : Happening α → Happening α → Prop
  | same (a : Happening α) : Swaps R a a
  | submit {op op' : Op α} (swap : R op op') (device : Device) :
      Swaps R (.submit op device) (.submit op' device)

/-- The same rank moves, or the same happens to the messages. -/
inductive Occurrence.Swaps (R : Rank → Op α → Op α → Prop) : Occurrence α → Occurrence α → Prop
  | rank (r : Rank) {a a' : Happening α} (swaps : a.Swaps (R r) a') : Swaps R (.inl (r, a)) (.inl (r, a'))
  | cluster (a : Cluster.Action) : Swaps R (.inr a) (.inr a)

/-- What happens to a rank that makes a call. -/
def Call.happening : Call α → Happening α
  | .transfer h t => .transfer h t
  | .submit op => .submit op .cpu
  | .flush h => .flush h

/-- The calls of some ranks, each in their order, between other things that happen.  Where it is the
turn of a rank it makes its next call. -/
def interleave (calls : Rank → List (Call α)) : List (Rank ⊕ Occurrence α) → List (Occurrence α)
  | [] => []
  | .inr act :: turns => act :: interleave calls turns
  | .inl r :: turns =>
    match calls r with
    | [] => interleave calls turns
    | c :: more => .inl (r, c.happening) :: interleave (Function.update calls r more) turns

theorem interleave_swaps {R : Rank → Op α → Op α → Prop} {calls calls' : Rank → List (Call α)}
    {turns : List (Rank ⊕ Occurrence α)}
    (hc : ∀ r, .inl r ∈ turns → List.Forall₂ (Call.Swaps (R r)) (calls r) (calls' r)) :
    List.Forall₂ (Occurrence.Swaps R) (interleave calls turns) (interleave calls' turns) := by
  induction turns generalizing calls calls' with
  | nil => exact .nil
  | cons turn turns ih =>
    have hrest : ∀ r, .inl r ∈ turns → List.Forall₂ (Call.Swaps (R r)) (calls r) (calls' r) :=
      fun r hr => hc r (List.mem_cons_of_mem _ hr)
    cases turn with
    | inr act =>
      refine .cons ?_ (ih hrest)
      cases act with
      | inl p => exact .rank p.1 (.same p.2)
      | inr a => exact .cluster a
    | inl r =>
      have hr := hc r List.mem_cons_self
      unfold interleave
      generalize hx : calls r = x at hr
      generalize hx' : calls' r = x' at hr
      cases hr with
      | nil => exact ih hrest
      | @cons c c' more more' hcall hmore =>
        refine .cons (.rank r ?_) (ih fun q hq => ?_)
        · cases hcall with
          | submit swap => exact .submit swap .cpu
          | transfer h t => exact .same _
          | flush h => exact .same _
        · by_cases hqr : q = r
          · subst hqr
            rwa [Function.update_self, Function.update_self]
          · rw [Function.update_of_ne hqr, Function.update_of_ne hqr]
            exact hrest q hq

namespace World

variable [Scalar α] {w w' : World α} {f : Rank → Op α → Op α}

omit [Scalar α] in
theorem node_outline (w : World α) (r : Rank) : w.outline.node r = (w.node r).outline := by
  unfold outline node
  rw [List.getD_eq_getElem?_getD, List.getD_eq_getElem?_getD, List.getElem?_map]
  cases w.nodes[r]? <;> rfl

/-- What has become of a world. -/
def after (w : World α) (acts : List (Occurrence α)) : Option (World α) :=
  (w.play (fun _ => []) acts).map (·.2)

/-- Two worlds that an exchange on each rank makes one. -/
structure Matches (f : Rank → Op α → Op α) (w w' : World α) : Prop where
  cluster : w'.cluster = w.cluster
  size : w'.size = w.size
  node : ∀ r, (w'.node r).mapOps (f r) = (w.node r).mapOps (f r)

theorem play_congr {I : Rank → Node α → Prop} {acts acts' : List (Occurrence α)}
    (hI : ∀ r n net a net' n', I r n → n.undergo net a = some (net', n') → I r n')
    (hacts : List.Forall₂ (Occurrence.Swaps fun r => Op.Alike (I r)) acts acts')
    (hw : ∀ r < w.size, I r (w.node r)) (h : Matches (fun r => Op.choice (I r)) w w')
    (scenes scenes' : Rank → List (Scene α)) :
    Option.Rel (fun p p' => Matches (fun r => Op.choice (I r)) p.2 p'.2) (w.play scenes acts)
      (w'.play scenes' acts') := by
  induction hacts generalizing w w' scenes scenes' with
  | nil => exact .some h
  | @cons act act' acts acts' hact hrest ih =>
    cases hact with
    | cluster a =>
      have hnext : Matches (fun r => Op.choice (I r)) { w with cluster := (w.cluster.act a).1 }
          { w' with cluster := (w'.cluster.act a).1 } := ⟨by rw [h.cluster], h.size, h.node⟩
      refine ih ?_ hnext _ _
      exact hw
    | @rank r a a' swaps =>
      unfold play
      rw [h.size]
      split
      · rename_i hr
        have ha : a'.mapOps (Op.choice (I r)) = a.mapOps (Op.choice (I r)) := by
          cases swaps with
          | same => rfl
          | submit swap device => exact congrArg (Happening.submit · device) (Op.choice_eq_of_alike swap)
        have hstep := Node.undergo_congr (Op.blind_choice (hw r hr)) (h.node r) ha w.cluster
        rw [h.cluster]
        cases hp : (w.node r).undergo w.cluster a with
        | none =>
          rw [hp] at hstep
          rw [Option.map_eq_none_iff.mp hstep]
          exact .none
        | some p =>
          rw [hp] at hstep
          obtain ⟨p', hp', heq⟩ := Option.map_eq_some_iff.mp hstep
          obtain ⟨hnet, hnode⟩ := Prod.mk.inj heq
          rw [hp']
          have hr' : r < w'.size := h.size.symm ▸ hr
          have hnext : Matches (fun r => Op.choice (I r)) { w.setNode r p.2 with cluster := p.1 }
              { w'.setNode r p'.2 with cluster := p'.1 } := by
            refine ⟨hnet, ?_, fun q => ?_⟩
            · exact List.length_set.trans (h.size.trans List.length_set.symm)
            · show ((w'.setNode r p'.2).node q).mapOps _ = ((w.setNode r p.2).node q).mapOps _
              rw [node_setNode hr, node_setNode hr']
              split
              · rename_i hq
                exact hq ▸ hnode
              · exact h.node q
          refine ih (fun q hq => ?_) hnext _ _
          show I q ((w.setNode r p.2).node q)
          rw [node_setNode hr]
          split
          · rename_i hqr
            exact hqr ▸ hI r _ _ _ _ _ (hw r hr) hp
          · exact hw q (Nat.lt_of_lt_of_eq hq List.length_set)
      · exact .none

omit [Scalar α] in
theorem Matches.outline (h : Matches f w w')
    (hf : ∀ r < w.size, ∀ op, (f r op).uses = op.uses) : w'.outline = w.outline := by
  have hnodes : w'.nodes.map Node.outline = w.nodes.map Node.outline := by
    refine List.ext_getElem ?_ fun r hr hr' => ?_
    · rw [List.length_map, List.length_map]
      exact h.size
    · rw [List.length_map] at hr hr'
      have hnode := congrArg Node.outline (h.node r)
      rw [Node.outline_mapOps (hf r hr'), Node.outline_mapOps (hf r hr')] at hnode
      rw [List.getElem_map, List.getElem_map]
      unfold World.node at hnode
      rwa [List.getD_eq_getElem?_getD, List.getD_eq_getElem?_getD, List.getElem?_eq_getElem hr,
        List.getElem?_eq_getElem hr'] at hnode
  unfold World.outline
  rw [h.cluster, hnodes]

/-- In the place of an operation another may be submitted that no rank of the kind that this one
remains tells from it.  Whatever happens, it comes to the same. -/
theorem outline_after {I : Rank → Node α → Prop} {acts acts' : List (Occurrence α)}
    (hI : ∀ r n net a net' n', I r n → n.undergo net a = some (net', n') → I r n')
    (hacts : List.Forall₂ (Occurrence.Swaps fun r => Op.Alike (I r)) acts acts')
    (hw : ∀ r < w.size, I r (w.node r)) :
    (w.after acts').map outline = (w.after acts).map outline := by
  have hrel := play_congr hI hacts hw ⟨rfl, rfl, fun _ => rfl⟩ (fun _ => []) fun _ => []
  unfold after
  cases hp : w.play (fun _ => []) acts with
  | none =>
    rw [hp] at hrel
    cases hp' : w.play (fun _ => []) acts' with
    | none => rfl
    | some p' =>
      rw [hp'] at hrel
      cases hrel
  | some p =>
    rw [hp] at hrel
    cases hp' : w.play (fun _ => []) acts' with
    | none =>
      rw [hp'] at hrel
      cases hrel
    | some p' =>
      rw [hp'] at hrel
      cases hrel with
      | some hmatches =>
        have hsize : p.2.size = w.size := (Course.nil.play hp).size
        refine congrArg some (hmatches.outline fun r hr op => ?_)
        exact ((Op.alike_choice (I r) op).similar _ (hw r (hsize ▸ hr))).uses

end World

end TiledTensor

import TiledTensor.Collective
import TiledTensor.Proofs.Grid
import TiledTensor.Proofs.Walk

/-!
# Copies onto one tile

The copies onto a destination tile come from the source tiles that share a coordinate with it, one
from each.  Since the source tiles share out the source, the boxes that are copied share out what
the source box covers of the destination tile; so the first copy may ignore what the tile held
exactly if the copies together replace all of it.
-/

namespace TiledTensor

open Region (Holds Bounded Inside)

namespace Tiling

variable {src : Tiling} {srcAt tileAt first count i y : Index} {tileShape ds bs : Shape}
  {overlap : Overlap} {visited : List Index} {copies : List TileCopy}

/-- The copies onto a tile are planned exactly. -/
structure Plans (src : Tiling) (srcAt tileAt : Index) (tileShape : Shape) (visited : List Index)
    (copies : List TileCopy) : Prop where
  /-- The source tiles that are visited are those that share a coordinate with the tile. -/
  visits : ∀ i, i ∈ visited ↔ src.grid.shape.contains i = true ∧
    ∃ start extent, src.tileStart i = .ok start ∧ src.tileShape i = .ok extent ∧
      ∃ x, x ∈ (⟨srcAt.plus start, extent⟩ : Region) ∧ x ∈ (⟨tileAt, tileShape⟩ : Region)
  nodup : visited.Nodup
  /-- Each of them gives one copy, of the box that it shares with the tile. -/
  each : List.Forall₂ (fun i c => src.grid.toLinear i = .ok c.source ∧
    ∃ start extent, src.tileStart i = .ok start ∧ src.tileShape i = .ok extent ∧
      c.plan.Exact (srcAt.plus start) extent tileAt tileShape) visited copies
  disjoint : copies.Pairwise fun c c' => ∀ y, y ∈ (⟨c.plan.dstStart, c.plan.shape⟩ : Region) →
    y ∉ (⟨c'.plan.dstStart, c'.plan.shape⟩ : Region)
  /-- Together they fill what the source box covers of the tile. -/
  union : ∀ y, (∃ c ∈ copies, y ∈ (⟨c.plan.dstStart, c.plan.shape⟩ : Region)) ↔
    tileShape.contains y = true ∧ tileAt.plus y ∈ (⟨srcAt, src.whole.shape⟩ : Region)
  /-- The first copy ignores what the tile held if the copies together replace it. -/
  access : ∀ k c, copies[k]? = some c →
    (c.access = .write ∧ k = 0 ∧ ∀ y, tileShape.contains y = true →
      ∃ c ∈ copies, y ∈ (⟨c.plan.dstStart, c.plan.shape⟩ : Region)) ∨
    (c.access = .readWrite ∧ ¬(k = 0 ∧ ∀ y, tileShape.contains y = true →
      ∃ c ∈ copies, y ∈ (⟨c.plan.dstStart, c.plan.shape⟩ : Region)))

/-- The tiles that a box inside the source reaches are the homes of its coordinates. -/
theorem reach_eq {start : Index} {extent : Shape} (h : Cut ds bs) (hin : Inside start extent ds)
    (h0 : 0 ∉ extent) : ∃ first count, reach start extent bs = .ok (first, count) ∧
      Bounded first count ∧
      ∀ i, Holds first count i ↔ ∃ y, Holds start extent y ∧ List.zipWith (· / ·) y bs = i := by
  induction h generalizing start extent with
  | nil =>
    cases start <;> cases extent <;> try exact absurd hin id
    refine ⟨[], [], rfl, trivial, fun i => ?_⟩
    cases i with
    | nil => exact ⟨fun _ => ⟨[], trivial, rfl⟩, fun _ => trivial⟩
    | cons x i => exact ⟨fun h => absurd h id, fun ⟨y, _, hy⟩ => by cases y <;> simp at hy⟩
  | @cons d b ds bs hdim _ ih =>
    obtain ⟨⟨hd, hlimit⟩, hb⟩ := hdim
    cases start with
    | nil => cases extent <;> exact absurd hin id
    | cons s start =>
      cases extent with
      | nil => exact absurd hin id
      | cons e extent =>
        rw [List.mem_cons, not_or] at h0
        obtain ⟨first, count, hreach, hbounded, hmem⟩ := ih hin.2 h0.2
        have he : 0 < e := Nat.pos_of_ne_zero (Ne.symm h0.1)
        have hend : s + e ≤ d := hin.1
        have hle : s / b ≤ (s + e - 1) / b := Nat.div_le_div_right (by omega)
        have hlast : (s + e - 1) / b ≤ s + e - 1 := Nat.div_le_self _ _
        have hcount : s / b + ((s + e - 1) / b - s / b + 1) = (s + e - 1) / b + 1 := by
          rw [← Nat.add_assoc, Nat.add_sub_cancel' hle]
        have hword : (s + e - 1) / b - s / b + 1 < Word.limit := by
          have := Nat.sub_le ((s + e - 1) / b) (s / b)
          omega
        have hdiv : ∀ z, Word.div z b = .ok (z / b) := fun z => if_neg (Nat.ne_of_gt hb)
        refine ⟨s / b :: first, ((s + e - 1) / b - s / b + 1) :: count, ?_,
          ⟨by rw [hcount]; omega, hbounded⟩, fun i => ?_⟩
        · rw [reach, Except.bind_of_ok (hdiv s),
            Except.bind_of_ok (Word.add_eq_ok_iff.mpr ⟨by omega, rfl⟩),
            Except.bind_of_ok (Word.sub_eq_ok_iff.mpr ⟨by omega, rfl⟩), Except.bind_of_ok (hdiv _),
            Except.bind_of_ok (Word.sub_eq_ok_iff.mpr ⟨hle, rfl⟩),
            Except.bind_of_ok (Word.add_eq_ok_iff.mpr ⟨hword, rfl⟩), Except.bind_of_ok hreach]
          rfl
        · cases i with
          | nil =>
            refine ⟨fun h => absurd h id, fun ⟨y, hy, heq⟩ => ?_⟩
            cases y with
            | nil => exact absurd hy id
            | cons z y => simp at heq
          | cons x i =>
            refine Iff.trans (and_congr (mem_reach_iff hb he) (hmem i)) ?_
            constructor
            · rintro ⟨⟨z, hz, rfl⟩, y, hy, rfl⟩
              exact ⟨z :: y, ⟨hz, hy⟩, rfl⟩
            · rintro ⟨y, hy, heq⟩
              cases y with
              | nil => exact absurd hy id
              | cons z y =>
                rw [List.zipWith_cons_cons, List.cons.injEq] at heq
                exact ⟨⟨z, hy.1, heq.1⟩, y, hy.2, heq.2⟩

/-- A source tile, placed with its source, holds what has its home there. -/
theorem holds_tile_iff {start : Index} {extent : Shape} (hin : Inside start extent src.whole.shape)
    (hb : Bounded srcAt src.whole.shape)
    (hholds : ∀ y, Holds start extent y ↔ src.whole.shape.contains y = true ∧ src.home y = i)
    (x : Index) : Holds (srcAt.plus start) extent x ↔
      ∃ y, x = srcAt.plus y ∧ src.whole.shape.contains y = true ∧ src.home y = i := by
  have hlen : srcAt.length = start.length := by rw [hb.length, hin.length.2, hin.length.1]
  constructor
  · intro hx
    obtain ⟨y, rfl, -, hy⟩ := hx.exists_of_plus hlen
    exact ⟨y, rfl, (hholds y).mp hy⟩
  · rintro ⟨y, rfl, hy⟩
    have hylen : y.length = start.length := by
      rw [Shape.length_of_contains hy.1, hin.length.2, hin.length.1]
    exact (Region.holds_plus_iff hlen hylen).mpr ((hholds y).mpr hy)

/-- What a source tile gives to a box that it shares a coordinate with. -/
structure Gives (src : Tiling) (srcAt dstAt : Index) (dstShape : Shape) (i : Index)
    (p : Nat × Overlap) : Prop where
  copy : src.copyFrom srcAt dstAt dstShape i = .ok (some p)
  source : src.grid.toLinear i = .ok p.1
  tile : ∃ start extent, src.tileStart i = .ok start ∧ src.tileShape i = .ok extent ∧
    p.2.Exact (srcAt.plus start) extent dstAt dstShape
  /-- What is copied is what has its home in the tile. -/
  common : ∀ x, Holds (dstAt.plus p.2.dstStart) p.2.shape x ↔
    (∃ y, x = srcAt.plus y ∧ src.whole.shape.contains y = true ∧ src.home y = i) ∧
      Holds dstAt dstShape x

/-- A tile that shares a coordinate with the box gives a copy. -/
theorem exists_gives (h0 : 0 ∉ src.whole.shape) (ha : Bounded srcAt src.whole.shape)
    (hb : Bounded tileAt tileShape) (hlen : src.whole.shape.length = tileShape.length)
    (hy : src.whole.shape.contains y = true) (hshared : Holds tileAt tileShape (srcAt.plus y)) :
    ∃ p, src.Gives srcAt tileAt tileShape (src.home y) p := by
  have hi := src.contains_home_of_contains h0 hy
  obtain ⟨start, extent, hstart, hextent, hin, -, hholds⟩ := src.tile_eq h0 hi
  obtain ⟨hadd, hbounded⟩ := hin.addEach ha
  have htile := holds_tile_iff hin ha hholds
  have hlinear := Layout.toLinear_eq hi
  have hstartAt : src.tileStartAt (src.grid.shape.position (src.home y)) = .ok start := by
    rw [tileStartAt, Except.bind_of_ok (Layout.toIndex_position hi), hstart]
  have hcopy : ∀ r, Overlap.between (srcAt.plus start) extent tileAt tileShape = .ok r →
      src.copyFrom srcAt tileAt tileShape (src.home y) =
        .ok (r.map fun plan => (src.grid.shape.position (src.home y), plan)) := by
    intro r hr
    rw [copyFrom, Except.bind_of_ok hlinear, Except.bind_of_ok hstartAt, Except.bind_of_ok hadd,
      Except.bind_of_ok hextent, Except.bind_of_ok hr]
    rfl
  rcases Overlap.between_eq hbounded hb (by rw [← hin.length.2, hlen]) with
    ⟨-, hnone⟩ | ⟨plan, hsome, hexact⟩
  · exact absurd ⟨(htile _).mpr ⟨y, rfl, hy, rfl⟩, hshared⟩ (hnone _)
  · refine ⟨_, hcopy _ hsome, hlinear, ⟨start, extent, hstart, hextent, hexact⟩, fun x => ?_⟩
    rw [hexact.common, htile]

section

variable {β γ : Type} {R : β → γ → Prop} {bs : List β} {cs : List γ} {b : β} {c : γ}

theorem exists_left (h : List.Forall₂ R bs cs) (hc : c ∈ cs) : ∃ b ∈ bs, R b c := by
  induction h with
  | nil => cases hc
  | cons hR _ ih =>
    rcases List.mem_cons.mp hc with rfl | hc
    · exact ⟨_, List.mem_cons_self, hR⟩
    · obtain ⟨b, hb, hR⟩ := ih hc
      exact ⟨b, List.mem_cons_of_mem _ hb, hR⟩

theorem exists_right (h : List.Forall₂ R bs cs) (hb : b ∈ bs) : ∃ c ∈ cs, R b c := by
  obtain ⟨c, hc, hR⟩ := exists_left h.flip hb
  exact ⟨c, hc, hR⟩

theorem exists_forall₂ (h : ∀ b ∈ bs, ∃ c, R b c) : ∃ cs, List.Forall₂ R bs cs := by
  induction bs with
  | nil => exact ⟨[], .nil⟩
  | cons b bs ih =>
    obtain ⟨c, hR⟩ := h b List.mem_cons_self
    obtain ⟨cs, hcs⟩ := ih fun b' hb' => h b' (List.mem_cons_of_mem _ hb')
    exact ⟨c :: cs, .cons hR hcs⟩

end

/-- The copies that are planned from what the visited tiles give, with the first one apart. -/
def accessed : (covered : Bool) → List (Nat × Overlap) → List TileCopy
  | _, [] => []
  | covered, p :: ps =>
    ⟨p.1, p.2, if p.2.covers || covered then .write else .readWrite⟩ :: accessed false ps

theorem copiesFrom_eq {covered : Bool} {ps : List (Nat × Overlap)}
    (h : List.Forall₂ (src.Gives srcAt tileAt tileShape) visited ps) :
    src.copiesFrom srcAt tileAt tileShape covered visited = ⟨accessed covered ps, none⟩ := by
  induction h generalizing covered with
  | nil => rfl
  | cons hgives _ ih =>
    rw [copiesFrom, hgives.copy]
    dsimp only
    rw [ih]
    rfl

theorem accessed_getElem? {covered : Bool} {ps : List (Nat × Overlap)} {k : Nat} {c : TileCopy}
    (h : (accessed covered ps)[k]? = some c) :
    c.access = if c.plan.covers || (covered && decide (k = 0)) then .write else .readWrite := by
  induction ps generalizing covered k with
  | nil => simp [accessed] at h
  | cons p ps ih =>
    cases k with
    | zero =>
      rw [accessed, List.getElem?_cons_zero, Option.some.injEq] at h
      rw [← h]
      simp
    | succ k =>
      rw [accessed, List.getElem?_cons_succ] at h
      simpa using ih h

theorem gives_accessed (covered : Bool) {ps : List (Nat × Overlap)}
    (h : List.Forall₂ (src.Gives srcAt tileAt tileShape) visited ps) :
    List.Forall₂ (fun i c => src.Gives srcAt tileAt tileShape i (c.source, c.plan)) visited
      (accessed covered ps) := by
  induction h generalizing covered with
  | nil => exact .nil
  | cons hgives _ ih => exact .cons hgives (ih false)

/-- A copy fills the places of the tile whose coordinates have their home in its source tile. -/
theorem Gives.holds_dst {p : Nat × Overlap} (h : src.Gives srcAt tileAt tileShape i p)
    (hlen : tileAt.length = tileShape.length) :
    Holds p.2.dstStart p.2.shape y ↔ tileShape.contains y = true ∧
      ∃ z, tileAt.plus y = srcAt.plus z ∧ src.whole.shape.contains z = true ∧ src.home z = i := by
  obtain ⟨start, extent, -, -, hexact⟩ := h.tile
  have hbox := hexact.holds_dst (i := y) hlen
  rw [hbox]
  refine and_congr_right fun hy => ?_
  have hin : Holds tileAt tileShape (tileAt.plus y) :=
    (Region.holds_plus_iff_contains ((Shape.length_of_contains hy).trans hlen.symm)).mpr hy
  have hboth := (hexact.common (tileAt.plus y)).symm.trans (h.common (tileAt.plus y))
  rwa [and_iff_left hin, and_iff_left hin] at hboth

/-- Different tiles give different places. -/
theorem pairwise_disjoint (h : List.Forall₂
      (fun i c => src.Gives srcAt tileAt tileShape i (c.source, c.plan)) visited copies)
    (hn : visited.Nodup) (hlen : tileAt.length = tileShape.length)
    (hsrc : srcAt.length = src.whole.shape.length) :
    copies.Pairwise fun c c' => ∀ y, y ∈ (⟨c.plan.dstStart, c.plan.shape⟩ : Region) →
      y ∉ (⟨c'.plan.dstStart, c'.plan.shape⟩ : Region) := by
  induction h with
  | nil => exact .nil
  | @cons i c visited copies hgives hrest ih =>
    obtain ⟨hi, hn⟩ := List.nodup_cons.mp hn
    refine .cons (fun c' hc' y hy hy' => hi ?_) (ih hn)
    obtain ⟨i', hi', hgives'⟩ := exists_left hrest hc'
    obtain ⟨-, z, hz, hcontains, hhome⟩ := (hgives.holds_dst hlen).mp hy
    obtain ⟨-, z', hz', hcontains', hhome'⟩ := (hgives'.holds_dst hlen).mp hy'
    have heq : z = z' := by
      refine Region.plus_left_cancel ?_ ?_ (hz.symm.trans hz')
      · rw [Shape.length_of_contains hcontains, hsrc]
      · rw [Shape.length_of_contains hcontains', hsrc]
    rw [← hhome, heq, hhome']
    exact hi'

/-- The copies fill what the source box covers of the tile, if each source tile with a coordinate in
the tile gives one. -/
theorem holds_copies_iff (hgives : List.Forall₂
      (fun i c => src.Gives srcAt tileAt tileShape i (c.source, c.plan)) visited copies)
    (hvisited : ∀ i, i ∈ visited ↔ ∃ y, src.whole.shape.contains y = true ∧
      Holds tileAt tileShape (srcAt.plus y) ∧ src.home y = i)
    (hb : tileAt.length = tileShape.length) (ha : srcAt.length = src.whole.shape.length) :
    (∃ c ∈ copies, y ∈ (⟨c.plan.dstStart, c.plan.shape⟩ : Region)) ↔
      tileShape.contains y = true ∧ tileAt.plus y ∈ (⟨srcAt, src.whole.shape⟩ : Region) := by
  constructor
  · rintro ⟨c, hc, hy⟩
    obtain ⟨i, -, hi⟩ := exists_left hgives hc
    obtain ⟨hcontains, z, hz, hsrc, -⟩ := (hi.holds_dst hb).mp hy
    refine ⟨hcontains, ?_⟩
    rw [hz, Region.mem_mk,
      Region.holds_plus_iff_contains ((Shape.length_of_contains hsrc).trans ha.symm)]
    exact hsrc
  · rintro ⟨hcontains, hsrc⟩
    obtain ⟨z, hz, heq, -⟩ := hsrc.exists_plus
    have hshared : Holds tileAt tileShape (srcAt.plus z) := by
      rw [← heq, Region.holds_plus_iff_contains ((Shape.length_of_contains hcontains).trans hb.symm)]
      exact hcontains
    obtain ⟨c, hc, hi⟩ := exists_right hgives ((hvisited _).mpr ⟨z, hz, hshared, rfl⟩)
    exact ⟨c, hc, (hi.holds_dst hb).mpr ⟨hcontains, z, heq, hz, rfl⟩⟩

/-- A source tile is visited if it shares a coordinate with the tile. -/
theorem visits_iff (h0 : 0 ∉ src.whole.shape) (ha : Bounded srcAt src.whole.shape) :
    (∃ y, src.whole.shape.contains y = true ∧ Holds tileAt tileShape (srcAt.plus y) ∧
        src.home y = i) ↔
      src.grid.shape.contains i = true ∧
        ∃ start extent, src.tileStart i = .ok start ∧ src.tileShape i = .ok extent ∧
          ∃ x, x ∈ (⟨srcAt.plus start, extent⟩ : Region) ∧ x ∈ (⟨tileAt, tileShape⟩ : Region) := by
  constructor
  · rintro ⟨y, hy, hshared, rfl⟩
    have hi := src.contains_home_of_contains h0 hy
    obtain ⟨start, extent, hstart, hextent, hin, -, hholds⟩ := src.tile_eq h0 hi
    exact ⟨hi, start, extent, hstart, hextent, srcAt.plus y,
      (holds_tile_iff hin ha hholds _).mpr ⟨y, rfl, hy, rfl⟩, hshared⟩
  · rintro ⟨hi, start, extent, hstart, hextent, x, hx, hshared⟩
    obtain ⟨start', extent', hstart', hextent', hin, -, hholds⟩ := src.tile_eq h0 hi
    obtain rfl : start = start' := Except.ok.inj (hstart.symm.trans hstart')
    obtain rfl : extent = extent' := Except.ok.inj (hextent.symm.trans hextent')
    obtain ⟨y, rfl, hy, hhome⟩ := (holds_tile_iff hin ha hholds x).mp hx
    exact ⟨y, hy, hshared, hhome⟩

/-- A copy that covers its tile fills it. -/
theorem Gives.holds_of_covers {p : Nat × Overlap} (h : src.Gives srcAt tileAt tileShape i p)
    (hlen : tileAt.length = tileShape.length) (hcovers : p.2.covers = true)
    (hy : tileShape.contains y = true) : Holds p.2.dstStart p.2.shape y := by
  obtain ⟨start, extent, -, -, hexact⟩ := h.tile
  refine (hexact.holds_dst hlen).mpr ⟨hy, hexact.covers.mp hcovers _ ?_⟩
  exact (Region.holds_plus_iff_contains ((Shape.length_of_contains hy).trans hlen.symm)).mpr hy

/-- A copy has a place in its tile. -/
theorem Gives.exists_place {p : Nat × Overlap} (h : src.Gives srcAt tileAt tileShape i p)
    (hlen : tileAt.length = tileShape.length) :
    ∃ y, tileShape.contains y = true ∧ Holds p.2.dstStart p.2.shape y := by
  obtain ⟨start, extent, -, -, hexact⟩ := h.tile
  have hplace := hexact.holds_dstStart
  exact ⟨_, ((hexact.holds_dst hlen).mp hplace).1, hplace⟩

/-- Only the first copy can ignore what the tile held, and does so if the source box covers the
tile. -/
theorem access_eq {covered : Bool} (hgives : List.Forall₂
      (fun i c => src.Gives srcAt tileAt tileShape i (c.source, c.plan)) visited copies)
    (hdisjoint : copies.Pairwise fun c c' => ∀ y, y ∈ (⟨c.plan.dstStart, c.plan.shape⟩ : Region) →
      y ∉ (⟨c'.plan.dstStart, c'.plan.shape⟩ : Region))
    (hcovered : covered = true ↔ ∀ y, tileShape.contains y = true →
      ∃ c ∈ copies, y ∈ (⟨c.plan.dstStart, c.plan.shape⟩ : Region))
    (hlen : tileAt.length = tileShape.length) {k : Nat} {c : TileCopy} (hk : copies[k]? = some c)
    (haccess : c.access = if c.plan.covers || (covered && decide (k = 0)) then .write
      else .readWrite) :
    (c.access = .write ∧ k = 0 ∧ ∀ y, tileShape.contains y = true →
      ∃ c ∈ copies, y ∈ (⟨c.plan.dstStart, c.plan.shape⟩ : Region)) ∨
    (c.access = .readWrite ∧ ¬(k = 0 ∧ ∀ y, tileShape.contains y = true →
      ∃ c ∈ copies, y ∈ (⟨c.plan.dstStart, c.plan.shape⟩ : Region))) := by
  have hc : c ∈ copies := List.mem_of_getElem? hk
  obtain ⟨i, -, hi⟩ := exists_left hgives hc
  by_cases hcovers : c.plan.covers = true
  · have hfill : ∀ y, tileShape.contains y = true →
        ∃ c ∈ copies, y ∈ (⟨c.plan.dstStart, c.plan.shape⟩ : Region) :=
      fun y hy => ⟨c, hc, hi.holds_of_covers hlen hcovers hy⟩
    -- another copy would have a place in common with this one
    have hfirst : k = 0 := by
      refine Nat.eq_zero_of_not_pos fun hpos => ?_
      obtain ⟨hklt, hck⟩ := List.getElem?_eq_some_iff.mp hk
      have h0lt : 0 < copies.length := by omega
      obtain ⟨i₀, -, hi₀⟩ := exists_left hgives (List.getElem_mem h0lt)
      obtain ⟨y, hy, hplace⟩ := hi₀.exists_place hlen
      have hnot := List.pairwise_iff_getElem.mp hdisjoint 0 k h0lt hklt hpos y hplace
      rw [hck] at hnot
      exact hnot (hi.holds_of_covers hlen hcovers hy)
    exact Or.inl ⟨by rw [haccess, hcovers]; rfl, hfirst, hfill⟩
  · rw [Bool.not_eq_true] at hcovers
    rw [hcovers, Bool.false_or] at haccess
    split at haccess
    · rename_i h
      rw [Bool.and_eq_true, hcovered, decide_eq_true_iff] at h
      exact Or.inl ⟨haccess, h.2, h.1⟩
    · rename_i h
      rw [Bool.and_eq_true, hcovered, decide_eq_true_iff] at h
      exact Or.inr ⟨haccess, fun h' => h ⟨h'.2, h'.1⟩⟩

/-- Where the source box overlaps a tile, the copies onto it are planned exactly. -/
theorem copiesOnto_of_overlap (h0 : 0 ∉ src.whole.shape) (ha : Bounded srcAt src.whole.shape)
    (hb : Bounded tileAt tileShape) (hlen : src.whole.shape.length = tileShape.length)
    (hbetween : Overlap.between srcAt src.whole.shape tileAt tileShape = .ok (some overlap))
    (hexact : overlap.Exact srcAt src.whole.shape tileAt tileShape) :
    ∃ first count visited copies,
      reach overlap.srcStart overlap.shape src.basetile = .ok (first, count) ∧
      Shape.indicesFrom first count = ⟨visited, none⟩ ∧
      src.copiesOnto srcAt tileAt tileShape = .ok (some ⟨copies, none⟩) ∧
      src.Plans srcAt tileAt tileShape visited copies := by
  obtain ⟨first, count, hreach, hbounded, hmem⟩ :=
    reach_eq (src.isCut h0) hexact.inside.1 hexact.positive
  have hwalk := Shape.indicesFrom_eq hbounded
  have hvisits := fun i => Shape.mem_visits (i := i) hbounded.length
  have hnodup := Shape.nodup_visits hbounded.length
  generalize (List.range count.prod).map (BoxWalk.visit first count) = visited at hwalk hvisits hnodup
  -- a tile is visited if one of its coordinates lies in the destination tile
  have hvisited : ∀ i, i ∈ visited ↔ ∃ y, src.whole.shape.contains y = true ∧
      Holds tileAt tileShape (srcAt.plus y) ∧ src.home y = i := by
    intro i
    rw [hvisits, hmem]
    refine exists_congr fun y => ?_
    rw [hexact.holds_src ha.length, and_assoc]
    rfl
  obtain ⟨ps, hps⟩ : ∃ ps, List.Forall₂ (src.Gives srcAt tileAt tileShape) visited ps := by
    refine exists_forall₂ fun i hi => ?_
    obtain ⟨y, hy, hshared, rfl⟩ := (hvisited i).mp hi
    exact exists_gives h0 ha hb hlen hy hshared
  have hgives := gives_accessed overlap.covers hps
  have hdisjoint := pairwise_disjoint hgives hnodup hb.length ha.length
  have hfill := fun y => holds_copies_iff (y := y) hgives hvisited hb.length ha.length
  have hcovered : overlap.covers = true ↔ ∀ y, tileShape.contains y = true →
      ∃ c ∈ accessed overlap.covers ps, y ∈ (⟨c.plan.dstStart, c.plan.shape⟩ : Region) := by
    rw [hexact.covers]
    constructor
    · intro h y hy
      refine (hfill y).mpr ⟨hy, h _ ?_⟩
      exact (Region.holds_plus_iff_contains ((Shape.length_of_contains hy).trans hb.length.symm)).mpr hy
    · intro h x hx
      obtain ⟨y, hy, rfl, -⟩ := hx.exists_plus
      exact ((hfill y).mp (h y hy)).2
  refine ⟨first, count, visited, accessed overlap.covers ps, hreach, hwalk, ?_,
    fun i => (hvisited i).trans (visits_iff h0 ha), hnodup,
    hgives.imp fun i c hi => ⟨hi.source, hi.tile⟩, hdisjoint, hfill,
    fun k c hk => access_eq hgives hdisjoint hcovered hb.length hk (accessed_getElem? hk)⟩
  rw [copiesOnto, Except.bind_of_ok hbetween]
  dsimp only
  rw [Except.bind_of_ok hreach]
  dsimp only
  rw [hwalk, copiesFrom_eq hps]
  dsimp only [Trail.append]
  rw [List.append_nil]
  rfl

/-- The copies onto a tile are planned exactly where the source box meets it, and there are none
where it does not. -/
theorem copiesOnto_eq (h0 : 0 ∉ src.whole.shape) (ha : Bounded srcAt src.whole.shape)
    (hb : Bounded tileAt tileShape) (hlen : src.whole.shape.length = tileShape.length) :
    (src.copiesOnto srcAt tileAt tileShape = .ok none ∧
      ∀ x, ¬(x ∈ (⟨srcAt, src.whole.shape⟩ : Region) ∧ x ∈ (⟨tileAt, tileShape⟩ : Region))) ∨
    ∃ overlap first count visited copies,
      Overlap.between srcAt src.whole.shape tileAt tileShape = .ok (some overlap) ∧
      reach overlap.srcStart overlap.shape src.basetile = .ok (first, count) ∧
      Shape.indicesFrom first count = ⟨visited, none⟩ ∧
      src.copiesOnto srcAt tileAt tileShape = .ok (some ⟨copies, none⟩) ∧
      src.Plans srcAt tileAt tileShape visited copies := by
  rcases Overlap.between_eq ha hb hlen with ⟨hnone, hempty⟩ | ⟨overlap, hsome, hexact⟩
  · exact Or.inl ⟨by rw [copiesOnto, Except.bind_of_ok hnone]; rfl, hempty⟩
  · obtain ⟨first, count, visited, copies, hreach, hwalk, hcopies, hplans⟩ :=
      copiesOnto_of_overlap h0 ha hb hlen hsome hexact
    exact Or.inr ⟨overlap, first, count, visited, copies, hsome, hreach, hwalk, hcopies, hplans⟩

/-- Where two tensors overlap, neither is empty, and every tile of the second has a place among the
coordinates of both. -/
theorem exists_tile_of_between {src dst : Tiling} {dstAt : Index} {o : Overlap} {n : Nat}
    (h : Overlap.between srcAt src.whole.shape dstAt dst.whole.shape = .ok (some o))
    (hn : n < dst.grid.count) :
    ∃ start layout, dst.tileStartAt n = .ok start ∧
      Word.addEach dstAt start = .ok (dstAt.plus start) ∧ dst.tileLayout n = .ok layout ∧
      0 ∉ src.whole.shape ∧ Bounded srcAt src.whole.shape ∧
      Bounded (dstAt.plus start) layout.shape ∧ src.whole.shape.length = layout.shape.length := by
  obtain ⟨ha, hb, hlen⟩ := Overlap.bounded_of_between h
  obtain ⟨hsrc, hdst⟩ : 0 ∉ src.whole.shape ∧ 0 ∉ dst.whole.shape := by
    rcases Overlap.between_eq ha hb hlen with ⟨hnone, -⟩ | ⟨o', -, hexact⟩
    · rw [hnone] at h
      cases h
    · exact ⟨hexact.inside.1.zero_notMem hexact.positive,
        hexact.inside.2.zero_notMem hexact.positive⟩
  have hi : dst.grid.shape.contains (dst.grid.shape.digitsOf n) = true :=
    Shape.contains_digitsOf (dst.grid.count_eq.1 ▸ hn)
  have hindex := Layout.toIndex_eq hn
  obtain ⟨start, extent, hstart, hextent, hin, -, -⟩ := dst.tile_eq hdst hi
  obtain ⟨hadd, hbounded⟩ := hin.addEach hb
  obtain ⟨layout, hlayout, rfl⟩ := Layout.new_of_le hin.le
  refine ⟨start, layout, ?_, hadd, ?_, hsrc, ha, hbounded, hlen.trans hin.length.2⟩
  · rw [tileStartAt, Except.bind_of_ok hindex, hstart]
  · rw [tileLayout, Except.bind_of_ok hindex, Except.bind_of_ok hextent, hlayout]

/-- Where two tensors overlap, every tile of the second is known and the copies onto it are planned
exactly; a tile that the source box does not meet has none. -/
theorem copiesOnto_exactly (src dst : Tiling) (srcAt dstAt : Index) (o : Overlap)
    (h : Overlap.between srcAt src.whole.shape dstAt dst.whole.shape = .ok (some o)) (n : Nat)
    (hn : n < dst.grid.count) :
    ∃ start tileAt layout, dst.tileStartAt n = .ok start ∧ Word.addEach dstAt start = .ok tileAt ∧
      dst.tileLayout n = .ok layout ∧
      ((src.copiesOnto srcAt tileAt layout.shape = .ok none ∧
        ∀ x, ¬(x ∈ (⟨srcAt, src.whole.shape⟩ : Region) ∧ x ∈ (⟨tileAt, layout.shape⟩ : Region))) ∨
      ∃ overlap first count visited copies,
        Overlap.between srcAt src.whole.shape tileAt layout.shape = .ok (some overlap) ∧
        reach overlap.srcStart overlap.shape src.basetile = .ok (first, count) ∧
        Shape.indicesFrom first count = ⟨visited, none⟩ ∧
        src.copiesOnto srcAt tileAt layout.shape = .ok (some ⟨copies, none⟩) ∧
        src.Plans srcAt tileAt layout.shape visited copies) := by
  obtain ⟨start, layout, hstart, hadd, hlayout, h0, ha, hb, hlen⟩ := exists_tile_of_between h hn
  exact ⟨start, dstAt.plus start, layout, hstart, hadd, hlayout, copiesOnto_eq h0 ha hb hlen⟩

/-- Four tiles of a source reach the first tile of a destination that they do not cover. -/
theorem copiesOnto_exactly_of_corner :
    ∃ src dst o, Tiling.new [5, 4] [2, 3] = .ok src ∧ Tiling.new [6, 3] [4, 2] = .ok dst ∧
      Overlap.between [1, 0] src.whole.shape [0, 2] dst.whole.shape = .ok (some o) ∧
      0 < dst.grid.count ∧
      ∃ start tileAt layout, dst.tileStartAt 0 = .ok start ∧
        Word.addEach [0, 2] start = .ok tileAt ∧ dst.tileLayout 0 = .ok layout ∧
        ((src.copiesOnto [1, 0] tileAt layout.shape = .ok none ∧
          ∀ x, ¬(x ∈ (⟨[1, 0], src.whole.shape⟩ : Region) ∧
            x ∈ (⟨tileAt, layout.shape⟩ : Region))) ∨
        ∃ overlap first count visited copies,
          Overlap.between [1, 0] src.whole.shape tileAt layout.shape = .ok (some overlap) ∧
          reach overlap.srcStart overlap.shape src.basetile = .ok (first, count) ∧
          Shape.indicesFrom first count = ⟨visited, none⟩ ∧
          src.copiesOnto [1, 0] tileAt layout.shape = .ok (some ⟨copies, none⟩) ∧
          src.Plans [1, 0] tileAt layout.shape visited copies) := by
  refine ⟨_, _, _, rfl, rfl, rfl, by decide, ?_⟩
  exact copiesOnto_exactly _ _ _ _ _ rfl 0 (by decide)

end Tiling

end TiledTensor

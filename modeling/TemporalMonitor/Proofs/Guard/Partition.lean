import TemporalMonitor.Proofs.Fold
import TemporalMonitor.Proofs.Guard.Cube

/-!
# Partitions of guards are exact

The regions of a partition are consistent, no valuation lies in two of them, and every guard either
covers a region or misses it. The invariant `Region.Divides` says so of the guards laid over the
regions so far, and laying one more guard over them keeps it.

## Main definitions

* `Region.cut`, `Region.remainder` — what one guard does to a region, and what is left of the guard
* `Region.Divides` — the regions divide the valuations as the guards do

## Main results

* `Region.overlay_eq` — laying a cube over regions cuts each of them and appends the remainder
* `Region.divides_partition` — the invariant of a partition
* `Region.partition_exact` — which valuations lie in which region
-/

namespace TemporalMonitor

namespace Region

variable {α : Type} [Ord α]
variable {c d : Cube} {p : α} {r : Region α} {rs : List (Region α)} {rest : List Cube}
variable {v : Valuation}

/-! ### Remainders -/

/-- What is left of some cubes outside all regions. -/
def remainder (rs : List (Region α)) (rest : List Cube) : List Cube :=
  rs.foldl (fun rest r => rest.flatMap fun d => Cube.difference d r.cube) rest

theorem remainder_cons : remainder (r :: rs) rest =
    remainder rs (rest.flatMap fun d => Cube.difference d r.cube) := rfl

/-- What is left of cubes is what lies in one of them and in no region. -/
theorem exists_mem_remainder_iff : (∃ d ∈ remainder rs rest, Cube.holds v d = true) ↔
    (∃ d ∈ rest, Cube.holds v d = true) ∧ ∀ r ∈ rs, ¬ Cube.holds v r.cube = true := by
  induction rs generalizing rest with
  | nil => simp [remainder]
  | cons r rs ih =>
    rw [remainder_cons, ih]
    have hstep : (∃ d ∈ rest.flatMap (fun d => Cube.difference d r.cube), Cube.holds v d = true) ↔
        (∃ d ∈ rest, Cube.holds v d = true) ∧ ¬ Cube.holds v r.cube = true := by
      constructor
      · rintro ⟨d, hd, hv⟩
        obtain ⟨e, he, hde⟩ := List.mem_flatMap.mp hd
        obtain ⟨hve, hvr⟩ := Cube.exists_mem_difference_iff.mp ⟨d, hde, hv⟩
        exact ⟨⟨e, he, hve⟩, hvr⟩
      · rintro ⟨⟨e, he, hve⟩, hvr⟩
        obtain ⟨d, hd, hv⟩ := Cube.exists_mem_difference_iff.mpr ⟨hve, hvr⟩
        exact ⟨d, List.mem_flatMap.mpr ⟨e, he, hd⟩, hv⟩
    rw [hstep, List.forall_mem_cons, and_assoc]

/-- What holds of cubes and passes to the pieces of a difference holds of the remainder. -/
theorem forall_mem_remainder {P : Cube → Prop}
    (hP : ∀ d e f, P d → f ∈ Cube.difference d e → P f) (h : ∀ d ∈ rest, P d) :
    ∀ d ∈ remainder rs rest, P d := by
  induction rs generalizing rest with
  | nil => exact h
  | cons r rs ih =>
    rw [remainder_cons]
    refine ih fun d hd => ?_
    obtain ⟨e, he, hde⟩ := List.mem_flatMap.mp hd
    exact hP e r.cube d (h e he) hde

theorem pairwise_apart_remainder (h : rest.Pairwise Cube.Apart) :
    (remainder rs rest).Pairwise Cube.Apart := by
  induction rs generalizing rest with
  | nil => exact h
  | cons r rs ih =>
    rw [remainder_cons]
    refine ih (List.pairwise_flatMap.mpr ⟨fun d _ => Cube.pairwise_apart_difference d r.cube, ?_⟩)
    refine h.imp fun hde x hx y hy => ?_
    exact hde.mono (Cube.subset_of_mem_difference hx) (Cube.subset_of_mem_difference hy)

theorem apart_of_mem_remainder (hd : d ∈ remainder rs rest) (hr : r ∈ rs) :
    Cube.Apart d r.cube := fun _ hv =>
  (exists_mem_remainder_iff.mp ⟨d, hd, hv.1⟩).2 r hr hv.2

/-! ### The invariant -/

/-- The regions divide the valuations the way the guards of the items do, and carry their
payloads. -/
structure Divides (items : List (Guard × α)) (rs : List (Region α)) : Prop where
  isConsistent : ∀ r ∈ rs, Cube.isConsistent r.cube = true
  apart : rs.Pairwise fun r s => Cube.Apart r.cube s.cube
  /-- Every guard covers a region or misses it. -/
  settled : ∀ r ∈ rs, ∀ i ∈ items, i.1.isImpliedBy r.cube = true ∨
    ∀ v, Cube.holds v r.cube = true → ¬ i.1.holds v = true
  mem_payloads : ∀ r ∈ rs, ∀ p, p ∈ r.payloads ↔
    ∃ i ∈ items, i.2 = p ∧ i.1.isImpliedBy r.cube = true
  covered : ∀ i ∈ items, ∀ v, i.1.holds v = true → ∃ r ∈ rs, Cube.holds v r.cube = true
  nonempty : ∀ r ∈ rs, ∃ p, p ∈ r.payloads

namespace Divides

variable {items : List (Guard × α)} {i : Guard × α}

/-- At a valuation inside a region, a guard covers the region exactly when it is met. -/
theorem isImpliedBy_iff_holds (h : Divides items rs) (hr : r ∈ rs) (hi : i ∈ items)
    (hv : Cube.holds v r.cube = true) : i.1.isImpliedBy r.cube = true ↔ i.1.holds v = true := by
  constructor
  · exact fun himp => Guard.holds_of_isImpliedBy himp hv
  · intro hiv
    exact (h.settled r hr i hi).resolve_right fun hmiss => hmiss v hv hiv

/-- A part of a region is covered by the same guards as the region. -/
theorem isImpliedBy_part_iff (h : Divides items rs) (hr : r ∈ rs) (hi : i ∈ items)
    (hsub : r.cube ⊆ d) (hd : Cube.isConsistent d = true) :
    i.1.isImpliedBy d = true ↔ i.1.isImpliedBy r.cube = true := by
  -- one valuation inside the part decides, since it lies inside the region too
  have hmodel := Cube.holds_model hd
  have hmodel' := Cube.holds_of_subset hsub hmodel
  constructor
  · intro himp
    exact (h.isImpliedBy_iff_holds hr hi hmodel').mpr (Guard.holds_of_isImpliedBy himp hmodel)
  · intro himp
    obtain ⟨g, p⟩ := i
    cases g with
    | never => simp [Guard.isImpliedBy] at himp
    | cube e =>
      simp only [Guard.isImpliedBy, Bool.and_eq_true, Cube.implies_iff] at himp ⊢
      exact ⟨hd, fun l hl => hsub l (himp.2 l hl)⟩

/-- The payloads of a region are those of the guards met at any valuation inside it. -/
theorem mem_payloads_iff_holds (h : Divides items rs) (hr : r ∈ rs)
    (hv : Cube.holds v r.cube = true) :
    p ∈ r.payloads ↔ ∃ i ∈ items, i.2 = p ∧ i.1.holds v = true := by
  rw [h.mem_payloads r hr p]
  refine exists_congr fun i => and_congr_right fun hi => ?_
  rw [h.isImpliedBy_iff_holds hr hi hv]

/-- The regions cover what the guards cover. -/
theorem exists_holds_iff (h : Divides items rs) :
    (∃ r ∈ rs, Cube.holds v r.cube = true) ↔ ∃ i ∈ items, i.1.holds v = true := by
  constructor
  · rintro ⟨r, hr, hv⟩
    obtain ⟨p, hp⟩ := h.nonempty r hr
    obtain ⟨i, hi, -, hiv⟩ := (h.mem_payloads_iff_holds hr hv).mp hp
    exact ⟨i, hi, hiv⟩
  · rintro ⟨i, hi, hiv⟩
    exact h.covered i hi v hiv

/-- A valuation inside some region is inside no other. -/
theorem exists_filter_eq (h : Divides items rs) (hv : ∃ r ∈ rs, Cube.holds v r.cube = true) :
    ∃ r, rs.filter (fun r => Cube.holds v r.cube) = [r] := by
  have hholds : ∀ r ∈ rs.filter (fun r => Cube.holds v r.cube), Cube.holds v r.cube = true :=
    fun r hr => (List.mem_filter.mp hr).2
  have hapart := h.apart.filter fun r => Cube.holds v r.cube
  cases hfound : rs.filter fun r => Cube.holds v r.cube with
  | nil =>
    obtain ⟨r, hr, hv⟩ := hv
    exact absurd hv (List.filter_eq_nil_iff.mp hfound r hr)
  | cons r others =>
    cases others with
    | nil => exact ⟨r, rfl⟩
    | cons s _ =>
      -- two regions with a valuation in common are not apart
      rw [hfound] at hholds hapart
      exact absurd ⟨hholds r (by simp), hholds s (by simp)⟩
        ((List.pairwise_cons.mp hapart).1 s List.mem_cons_self v)

/-- A guard that no valuation meets may be added without changing the regions. -/
theorem add_unmet (h : Divides items rs) {g : Guard} (hg : ∀ v, ¬ g.holds v = true) (p : α) :
    Divides (items ++ [(g, p)]) rs where
  isConsistent := h.isConsistent
  apart := h.apart
  settled r hr i hi := by
    rcases List.mem_append.mp hi with hi | hi
    · exact h.settled r hr i hi
    · rw [List.mem_singleton.mp hi]
      exact .inr fun v _ => hg v
  mem_payloads r hr q := by
    have hnot : ¬ g.isImpliedBy r.cube = true := fun himp =>
      hg _ (Guard.holds_of_isImpliedBy himp (Cube.holds_model (h.isConsistent r hr)))
    rw [h.mem_payloads r hr q]
    simp [or_and_right, exists_or, hnot]
  covered i hi v hiv := by
    rcases List.mem_append.mp hi with hi | hi
    · exact h.covered i hi v hiv
    · rw [List.mem_singleton.mp hi] at hiv
      exact absurd hiv (hg v)
  nonempty := h.nonempty

/-- A cube outside all regions is missed by every guard laid over them. -/
theorem not_holds_of_apart (h : Divides items rs) (hd : ∀ r ∈ rs, Cube.Apart d r.cube)
    (hi : i ∈ items) (hv : Cube.holds v d = true) : ¬ i.1.holds v = true := by
  intro hiv
  obtain ⟨r, hr, hvr⟩ := h.covered i hi v hiv
  exact hd r hr v ⟨hv, hvr⟩

end Divides

theorem divides_nil : Divides ([] : List (Guard × α)) [] where
  isConsistent := nofun
  apart := .nil
  settled := nofun
  mem_payloads := nofun
  covered := nofun
  nonempty := nofun

/-! ### Overlays in closed form -/

variable [Std.LawfulEqOrd α] [Std.TransOrd α]

/-- What becomes of one region under a cube with payload `p`: the part outside the cube keeps its
payloads, and the part inside, if there is one, gets the new payload. -/
def cut (c : Cube) (p : α) (r : Region α) : List (Region α) :=
  (Cube.difference r.cube c).map (fun d => ⟨d, r.payloads⟩) ++
    if Cube.intersects r.cube c then [⟨r.cube ∪ c, insert p r.payloads⟩] else []

theorem flatMap_difference_of_apart (h : ∀ d ∈ rest, Cube.Apart d c) :
    rest.flatMap (fun d => Cube.difference d c) = rest := by
  induction rest with
  | nil => rfl
  | cons d ds ih =>
    have hd : ¬ Cube.intersects d c = true :=
      Cube.not_intersects_iff_apart.mpr (h d List.mem_cons_self)
    rw [List.flatMap_cons, ih fun e he => h e (List.mem_cons_of_mem _ he), Cube.difference,
      if_neg hd, List.singleton_append]

/-- Laying a cube over regions cuts every region and appends what is left of the cube. -/
theorem overlay_eq (hrest : ∀ d ∈ rest, c ⊆ d) : overlay c p rs rest =
    rs.flatMap (cut c p) ++ (remainder rs rest).map fun d => ⟨d, {p}⟩ := by
  induction rs generalizing rest with
  | nil => rfl
  | cons r rs ih =>
    unfold overlay
    rw [List.flatMap_cons, remainder_cons, cut]
    split
    · rename_i hrc
      rw [ih]
      · simp
      · intro d hd
        obtain ⟨e, he, hde⟩ := List.mem_flatMap.mp hd
        exact SortedSet.subset_trans (hrest e he) (Cube.subset_of_mem_difference hde)
    · rename_i hrc
      -- a region that misses the cube misses every piece of it
      have hapart : ∀ d ∈ rest, Cube.Apart d r.cube := fun d hd =>
        (Cube.not_intersects_iff_apart.mp hrc).symm.mono (hrest d hd) (SortedSet.subset_refl _)
      rw [ih hrest, flatMap_difference_of_apart hapart, Cube.difference, if_neg hrc]
      rfl

theorem mem_cut {x : Region α} : x ∈ cut c p r ↔
    (∃ d ∈ Cube.difference r.cube c, x = ⟨d, r.payloads⟩) ∨
      Cube.intersects r.cube c = true ∧ x = ⟨r.cube ∪ c, insert p r.payloads⟩ := by
  unfold cut
  rw [List.mem_append, List.mem_map]
  refine or_congr ⟨fun ⟨d, hd, hx⟩ => ⟨d, hd, hx.symm⟩, fun ⟨d, hd, hx⟩ => ⟨d, hd, hx.symm⟩⟩ ?_
  split <;> simp_all

theorem subset_of_mem_cut {x : Region α} (h : x ∈ cut c p r) : r.cube ⊆ x.cube := by
  rcases mem_cut.mp h with ⟨d, hd, rfl⟩ | ⟨-, rfl⟩
  · exact Cube.subset_of_mem_difference hd
  · exact SortedSet.subset_union_left

theorem pairwise_apart_cut : (cut c p r).Pairwise fun x y => Cube.Apart x.cube y.cube := by
  unfold cut
  refine List.pairwise_append.mpr ⟨?_, ?_, ?_⟩
  · exact List.pairwise_map.mpr (Cube.pairwise_apart_difference r.cube c)
  · split
    · exact List.pairwise_singleton _ _
    · exact .nil
  · intro x hx y hy
    obtain ⟨d, hd, rfl⟩ := List.mem_map.mp hx
    split at hy
    · rw [List.mem_singleton.mp hy]
      exact (Cube.apart_of_mem_difference hd).mono (SortedSet.subset_refl _)
        SortedSet.subset_union_right
    · simp at hy

/-- Inside a region, the parts it is cut into leave nothing out. -/
theorem exists_mem_cut (h : Cube.holds v r.cube = true) :
    ∃ x ∈ cut c p r, Cube.holds v x.cube = true := by
  by_cases hc : Cube.holds v c = true
  · have hrc : Cube.intersects r.cube c = true := Cube.intersects_iff_exists.mpr ⟨v, h, hc⟩
    exact ⟨_, mem_cut.mpr (.inr ⟨hrc, rfl⟩), Cube.holds_union.mpr ⟨h, hc⟩⟩
  · obtain ⟨d, hd, hv⟩ := Cube.exists_mem_difference_iff.mpr ⟨h, hc⟩
    exact ⟨_, mem_cut.mpr (.inl ⟨d, hd, rfl⟩), hv⟩

/-! ### Laying guards over regions -/

namespace Divides

variable {items : List (Guard × α)}

/-- The parts of the regions, and of the cube laid over them, with what the invariant needs to know
about each: how its payloads come about, and that the new guard covers it or misses it. -/
theorem mem_overlay (h : Divides items rs) (hc : Cube.isConsistent c = true) {x : Region α}
    (hx : x ∈ overlay c p rs [c]) : Cube.isConsistent x.cube = true ∧
      ((∃ r ∈ rs, r.cube ⊆ x.cube ∧ x.payloads = r.payloads ∧ Cube.Apart x.cube c) ∨
        (∃ r ∈ rs, r.cube ⊆ x.cube ∧ x.payloads = insert p r.payloads ∧ c ⊆ x.cube) ∨
        (∀ r ∈ rs, Cube.Apart x.cube r.cube) ∧ x.payloads = {p} ∧ c ⊆ x.cube) := by
  rw [overlay_eq (by simpa using SortedSet.subset_refl c), List.mem_append, List.mem_flatMap] at hx
  rcases hx with ⟨r, hr, hx⟩ | hx
  · rcases mem_cut.mp hx with ⟨d, hd, rfl⟩ | ⟨hrc, rfl⟩
    · exact ⟨Cube.isConsistent_of_mem_difference (h.isConsistent r hr) hd,
        .inl ⟨r, hr, Cube.subset_of_mem_difference hd, rfl, Cube.apart_of_mem_difference hd⟩⟩
    · exact ⟨Cube.intersects_iff_isConsistent_union.mp hrc,
        .inr (.inl ⟨r, hr, SortedSet.subset_union_left, rfl, SortedSet.subset_union_right⟩)⟩
  · obtain ⟨d, hd, rfl⟩ := List.mem_map.mp hx
    have hsub : ∀ d ∈ remainder rs [c], c ⊆ d := by
      refine forall_mem_remainder (fun d e f hcd hf => ?_) (by simpa using SortedSet.subset_refl c)
      exact SortedSet.subset_trans hcd (Cube.subset_of_mem_difference hf)
    have hcons : ∀ d ∈ remainder rs [c], Cube.isConsistent d = true :=
      forall_mem_remainder (fun d e f hd hf => Cube.isConsistent_of_mem_difference hd hf)
        (by simpa using hc)
    exact ⟨hcons d hd, .inr (.inr ⟨fun r hr => apart_of_mem_remainder hd hr, rfl, hsub d hd⟩)⟩

theorem pairwise_apart_overlay (h : Divides items rs) :
    (overlay c p rs [c]).Pairwise fun x y => Cube.Apart x.cube y.cube := by
  rw [overlay_eq (by simpa using SortedSet.subset_refl c)]
  refine List.pairwise_append.mpr ⟨List.pairwise_flatMap.mpr ⟨?_, ?_⟩, ?_, ?_⟩
  · exact fun r _ => pairwise_apart_cut
  · refine h.apart.imp fun hrs x hx y hy => ?_
    exact hrs.mono (subset_of_mem_cut hx) (subset_of_mem_cut hy)
  · exact List.pairwise_map.mpr (pairwise_apart_remainder (List.pairwise_singleton _ _))
  · intro x hx y hy
    obtain ⟨r, hr, hx⟩ := List.mem_flatMap.mp hx
    obtain ⟨d, hd, rfl⟩ := List.mem_map.mp hy
    exact (apart_of_mem_remainder hd hr).symm.mono (subset_of_mem_cut hx) (SortedSet.subset_refl _)

/-- Laying a consistent cube over the regions keeps the invariant. -/
theorem overlay (h : Divides items rs) (hc : Cube.isConsistent c = true) (p : α) :
    Divides (items ++ [(.cube c, p)]) (Region.overlay c p rs [c]) where
  isConsistent x hx := (h.mem_overlay hc hx).1
  apart := h.pairwise_apart_overlay
  settled x hx i hi := by
    obtain ⟨hcons, hcase⟩ := h.mem_overlay hc hx
    rcases List.mem_append.mp hi with hi | hi
    · -- what an earlier guard does to a region it does to its parts
      have hpart : ∀ r ∈ rs, r.cube ⊆ x.cube → i.1.isImpliedBy x.cube = true ∨
          ∀ v, Cube.holds v x.cube = true → ¬ i.1.holds v = true := by
        intro r hr hsub
        refine (h.settled r hr i hi).imp (h.isImpliedBy_part_iff hr hi hsub hcons).mpr ?_
        exact fun hmiss v hv => hmiss v (Cube.holds_of_subset hsub hv)
      rcases hcase with ⟨r, hr, hsub, -⟩ | ⟨r, hr, hsub, -⟩ | ⟨hapart, -⟩
      · exact hpart r hr hsub
      · exact hpart r hr hsub
      · exact .inr fun v hv => h.not_holds_of_apart hapart hi hv
    · rw [List.mem_singleton.mp hi]
      have himp : c ⊆ x.cube → (Guard.cube c).isImpliedBy x.cube = true := by
        intro hsub
        simp [Guard.isImpliedBy, hcons, Cube.implies_iff.mpr hsub]
      rcases hcase with ⟨_, _, _, _, hapart⟩ | ⟨_, _, _, _, hsub⟩ | ⟨_, _, hsub⟩
      · exact .inr fun v hv hcv => hapart v ⟨hv, hcv⟩
      · exact .inl (himp hsub)
      · exact .inl (himp hsub)
  mem_payloads x hx q := by
    obtain ⟨hcons, hcase⟩ := h.mem_overlay hc hx
    have hsplit : (∃ i ∈ items ++ [(Guard.cube c, p)], i.2 = q ∧ i.1.isImpliedBy x.cube = true) ↔
        (∃ i ∈ items, i.2 = q ∧ i.1.isImpliedBy x.cube = true) ∨
          p = q ∧ (Guard.cube c).isImpliedBy x.cube = true := by
      simp [or_and_right, exists_or]
    have hnew : (Guard.cube c).isImpliedBy x.cube = true ↔ c ⊆ x.cube := by
      simp [Guard.isImpliedBy, hcons, Cube.implies_iff]
    have hold : ∀ r ∈ rs, r.cube ⊆ x.cube → ((∃ i ∈ items, i.2 = q ∧
        i.1.isImpliedBy x.cube = true) ↔ q ∈ r.payloads) := by
      intro r hr hsub
      rw [h.mem_payloads r hr q]
      refine exists_congr fun i => and_congr_right fun hi => ?_
      rw [h.isImpliedBy_part_iff hr hi hsub hcons]
    rw [hsplit, hnew]
    -- part of a region outside the cube, part of a region inside it, and rest of the cube
    rcases hcase with ⟨r, hr, hsub, hpay, hapart⟩ | ⟨r, hr, hsub, hpay, hcx⟩ | ⟨hapart, hpay, hcx⟩
    · have hncx : ¬ c ⊆ x.cube := fun hcx =>
        hapart _ ⟨Cube.holds_model hcons, Cube.holds_of_subset hcx (Cube.holds_model hcons)⟩
      rw [hold r hr hsub, hpay]
      simp [hncx]
    · rw [hold r hr hsub, hpay, SortedSet.mem_insert]
      exact ⟨fun hq => hq.elim (fun hqp => .inr ⟨hqp.symm, hcx⟩) .inl,
        fun hq => hq.elim .inr fun hpq => .inl hpq.1.symm⟩
    · have hnone : ¬ ∃ i ∈ items, i.2 = q ∧ i.1.isImpliedBy x.cube = true := by
        rintro ⟨i, hi, -, himp⟩
        have hmodel := Cube.holds_model hcons
        exact h.not_holds_of_apart hapart hi hmodel (Guard.holds_of_isImpliedBy himp hmodel)
      rw [hpay, SortedSet.mem_singleton]
      exact ⟨fun hq => .inr ⟨hq.symm, hcx⟩, fun hq => (hq.resolve_left hnone).1.symm⟩
  covered i hi v hiv := by
    rw [overlay_eq (by simpa using SortedSet.subset_refl c)]
    have hold : (∃ r ∈ rs, Cube.holds v r.cube = true) → ∃ x ∈ rs.flatMap (cut c p) ++
        (remainder rs [c]).map (fun d => ⟨d, {p}⟩), Cube.holds v x.cube = true := by
      rintro ⟨r, hr, hv⟩
      obtain ⟨x, hx, hxv⟩ := exists_mem_cut (c := c) (p := p) hv
      exact ⟨x, List.mem_append_left _ (List.mem_flatMap.mpr ⟨r, hr, hx⟩), hxv⟩
    rcases List.mem_append.mp hi with hi | hi
    · exact hold (h.covered i hi v hiv)
    · rw [List.mem_singleton.mp hi, Guard.holds_cube] at hiv
      by_cases hr : ∃ r ∈ rs, Cube.holds v r.cube = true
      · exact hold hr
      · -- what lies in no region is in the rest of the cube
        have hmiss : ∀ r ∈ rs, ¬ Cube.holds v r.cube = true := fun r hr' hv => hr ⟨r, hr', hv⟩
        obtain ⟨d, hd, hdv⟩ :=
          exists_mem_remainder_iff.mpr ⟨⟨c, List.mem_singleton_self c, hiv⟩, hmiss⟩
        exact ⟨_, List.mem_append_right _ (List.mem_map.mpr ⟨d, hd, rfl⟩), hdv⟩
  nonempty x hx := by
    rcases (h.mem_overlay hc hx).2 with ⟨r, hr, -, hpay, -⟩ | ⟨r, hr, -, hpay, -⟩ | ⟨-, hpay, -⟩
    · exact hpay ▸ h.nonempty r hr
    · exact ⟨p, hpay ▸ SortedSet.mem_insert.mpr (.inl rfl)⟩
    · exact ⟨p, hpay ▸ SortedSet.mem_singleton.mpr rfl⟩

theorem add (h : Divides items rs) (i : Guard × α) : Divides (items ++ [i]) (Region.add rs i) := by
  obtain ⟨g, p⟩ := i
  cases g with
  | never => exact h.add_unmet (fun v => by simp) p
  | cube c =>
    simp only [Region.add]
    split
    · rename_i hc
      exact h.overlay hc p
    · rename_i hc
      exact h.add_unmet (fun v hv => hc (Cube.isConsistent_of_holds (Guard.holds_cube ▸ hv))) p

end Divides

/-- The regions of a partition divide the valuations the way its guards do. -/
theorem divides_partition (items : List (Guard × α)) : Divides items (partition items) :=
  foldl_invariant (I := Divides) divides_nil fun _ i _ _ _ h => h.add i

/-- The regions of a partition are consistent and disjoint. Together they cover what its guards
cover, and the one region that a valuation lies in carries the payloads of the guards met by it. -/
theorem partition_exact (items : List (Guard × α)) :
    (∀ r ∈ partition items, Cube.isConsistent r.cube = true) ∧
      ((partition items).Pairwise fun r s => Cube.Apart r.cube s.cube) ∧
      ∀ v : Valuation,
        ((∃ r ∈ partition items, Cube.holds v r.cube = true) ↔ ∃ i ∈ items, i.1.holds v = true) ∧
        ((∃ i ∈ items, i.1.holds v = true) →
          ∃ r, (partition items).filter (fun r => Cube.holds v r.cube) = [r] ∧
            ∀ p, p ∈ r.payloads ↔ ∃ i ∈ items, i.2 = p ∧ i.1.holds v = true) := by
  have h := divides_partition items
  refine ⟨h.isConsistent, h.apart, fun v => ⟨h.exists_holds_iff, fun hmet => ?_⟩⟩
  obtain ⟨r, hr⟩ := h.exists_filter_eq (h.exists_holds_iff.mpr hmet)
  have hmem : r ∈ (partition items).filter fun r => Cube.holds v r.cube := by simp [hr]
  obtain ⟨hrs, hv⟩ := List.mem_filter.mp hmem
  exact ⟨r, hr, fun p => h.mem_payloads_iff_holds hrs hv⟩

/-- Two guards that overlap, one that is never met, and a contradictory cube. -/
def overlappingGuards : List (Guard × Nat) :=
  [(.cube {⟨"p", true⟩}, 1), (.never, 2), (.cube {⟨"q", true⟩, ⟨"q", false⟩}, 3),
    (.cube {⟨"q", true⟩}, 4)]

theorem partition_overlappingGuards :
    (∃ i ∈ overlappingGuards, i.1.holds (fun _ => true) = true) ∧
      ∃ r, (partition overlappingGuards).filter (fun r => Cube.holds (fun _ => true) r.cube) = [r] ∧
        ∀ p, p ∈ r.payloads ↔
          ∃ i ∈ overlappingGuards, i.2 = p ∧ i.1.holds (fun _ => true) = true := by
  have hmet : ∃ i ∈ overlappingGuards, i.1.holds (fun _ => true) = true := by decide
  exact ⟨hmet, ((partition_exact overlappingGuards).2.2 fun _ => true).2 hmet⟩

end Region

end TemporalMonitor
